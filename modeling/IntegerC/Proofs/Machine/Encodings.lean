import IntegerC.Proofs.Compilation
import IntegerC.Proofs.Machine.Operands

set_option autoImplicit false

/-! # Encodable instructions

Once no rule fits an instruction that was chosen, or that has the form of one, the hardware takes its
operands. Choosing instructions, placing variables and the rules themselves keep that form, so what
mending ends with is encodable.
-/

namespace IntegerC.Machine

/-! ## Forms -/

/-- An instruction of the form that is chosen: no immediate is written, and the count of a shift is
`cx` or a byte. -/
def Instr.Chosen (i : Instr) : Prop := i.Uses (fun _ => True) fun a => a.isImm = false

/-- What the hardware asks of the operands of each kind of instruction. -/
def Instr.Accepted : Instr → Prop
  | .movsx src dst => src.isImm = false ∧ ∃ r, dst = .reg r
  | .movZeroExtend _ _ => False
  | .binary op _ _ dst => op = .mult → dst.isMemory = false
  | .cmp _ _ dst => dst.isImm = false
  | .idiv _ a | .div _ a => a.isImm = false
  | _ => True

/-- An instruction that can be encoded: at most one of its operands is in memory, an immediate has 32
bits unless a quadword is moved into a register, and its kind accepts the operands. -/
structure Instr.Encodable (i : Instr) : Prop where
  placed : i.Placed
  chosen : i.Chosen
  memory : i.operands.countP Operand.isMemory ≤ 1
  immediates : ∀ n, .imm n ∈ i.operands → (-2147483648 ≤ n ∧ n ≤ 2147483647) ∨
    ∃ r, i = .mov .quadword (.imm n) (.reg r)
  accepted : i.Accepted

/-! ## Instructions that no rule fits -/

theorem Operand.imm_bounds {n : Int} (h : (imm n).isLarge = false) :
    -2147483648 ≤ n ∧ n ≤ 2147483647 := by
  have hholds : IntType.int.Holds n := by simpa [isLarge] using h
  exact hholds

theorem Operand.exists_reg {a : Operand} (hp : a.Placed) (himm : a.isImm = false)
    (hmemory : a.isMemory = false) : ∃ r, a = .reg r := by
  cases a with
  | reg r => exact ⟨r, rfl⟩
  | imm _ => cases himm
  | pseudo _ => exact hp.elim
  | stack _ | data _ => cases hmemory

/-- Where no immediate is large, the immediates are as they have to be. -/
theorem Instr.Encodable.of_small {i : Instr} (hp : i.Placed) (hc : i.Chosen)
    (hmemory : i.operands.countP Operand.isMemory ≤ 1) (haccepted : i.Accepted)
    (hsmall : ∀ a ∈ i.operands, a.isLarge = false) : i.Encodable :=
  ⟨hp, hc, hmemory, fun _ hn => .inl (Operand.imm_bounds (hsmall _ hn)), haccepted⟩

theorem Operand.countP_isMemory_le {src dst : Operand}
    (h : src.isMemory = true → dst.isMemory = false) : [src, dst].countP isMemory ≤ 1 := by
  cases hs : src.isMemory with
  | true => simp [hs, h hs]
  | false =>
      cases hd : dst.isMemory <;> simp [hs, hd]

/-- What no rule fits is encodable. -/
theorem Instr.encodable_of_none {i : Instr} (hp : i.Placed) (hc : i.Chosen)
    (h : ∀ r ∈ Rule.all, r.mend? i = none) : i.Encodable := by
  have hnone : ∀ r : Rule, r.mend? i = none := fun r => h r (Rule.mem_all r)
  cases i with
  | mov w src dst =>
      have himm : dst.isImm = false := hc.2
      have hmemory := hnone .movMemoryToMemory
      have hlarge := hnone .movLargeImmediateToMemory
      simp [Rule.mend?] at hmemory hlarge
      have hone := Operand.countP_isMemory_le hmemory
      cases w with
      | longword =>
          have hlong := hnone .longwordImmediate
          simp [Rule.mend?] at hlong
          exact .of_small hp hc hone trivial (by simpa [operands] using hlong)
      | quadword =>
          refine ⟨hp, hc, hone, fun n hn => ?_, trivial⟩
          by_cases hbig : (Operand.imm n).isLarge = true
          · -- a large immediate is moved, and neither into memory nor into an immediate
            obtain rfl : src = .imm n := by
              simp only [operands, List.mem_cons, List.not_mem_nil, or_false] at hn
              rcases hn with rfl | rfl
              · rfl
              · cases himm
            obtain ⟨r, rfl⟩ := Operand.exists_reg (hp dst (by simp [operands])) himm (hlarge hbig)
            exact .inr ⟨r, rfl⟩
          · exact .inl (Operand.imm_bounds (by simpa using hbig))
  | movsx src dst =>
      have hsrc := hnone .movsxImmediateSource
      have hdst := hnone .movsxMemoryDestination
      simp [Rule.mend?] at hsrc hdst
      have hreg := Operand.exists_reg (hp dst (by simp [operands])) hc.2 hdst
      refine .of_small hp hc (Operand.countP_isMemory_le fun _ => hdst) ⟨hsrc, hreg⟩ ?_
      simp [operands, Operand.isLarge_of_isImm hsrc, Operand.isLarge_of_isImm hc.2]
  | movZeroExtend src dst => cases hnone .zeroExtendToMemory
  | binary op w src dst =>
      have hlarge := hnone .binaryLargeImmediate
      have hmemory := hnone .binaryMemoryToMemory
      simp [Rule.mend?] at hlarge hmemory
      refine .of_small hp hc (Operand.countP_isMemory_le hmemory) ?_ ?_
      · rintro rfl
        have hmult := hnone .multiplyIntoMemory
        simpa [Rule.mend?] using hmult
      · simp [operands, hlarge, Operand.isLarge_of_isImm hc.2.1]
  | cmp w src dst =>
      have hlarge := hnone .cmpLargeImmediate
      have hmemory := hnone .cmpMemoryToMemory
      have himm := hnone .cmpImmediateDestination
      simp [Rule.mend?] at hlarge hmemory himm
      refine .of_small hp hc (Operand.countP_isMemory_le hmemory) himm ?_
      simp [operands, hlarge, Operand.isLarge_of_isImm himm]
  | idiv w a | div w a =>
      have himm := hnone .divideByImmediate
      simp [Rule.mend?] at himm
      refine .of_small hp hc List.countP_le_length himm ?_
      simp [operands, Operand.isLarge_of_isImm himm]
  | push a =>
      have hlarge := hnone .pushLargeImmediate
      simp [Rule.mend?] at hlarge
      exact .of_small hp hc List.countP_le_length trivial (by simp [operands, hlarge])
  | unary op w a | setCC c a =>
      have himm : a.isImm = false := hc
      refine .of_small hp hc List.countP_le_length trivial ?_
      simp [operands, Operand.isLarge_of_isImm himm]
  | _ => exact .of_small hp hc (Nat.zero_le 1) trivial (by simp [operands])

/-! ## Mending -/

/-- The rules keep the form of chosen instructions. -/
theorem Rule.chosen_of_mend? {r : Rule} {i : Instr} {out : List Instr} (h : r.mend? i = some out)
    (hi : i.Chosen) : ∀ j ∈ out, j.Chosen :=
  Rule.uses_of_mend? (fun _ _ => trivial) (fun _ _ => trivial)
    (fun a ha => a.isImm_asLongword.trans ha) rfl rfl h hi

/-- What is made of an instruction of the form that is chosen is encodable. -/
theorem encodable_mend {i : Instr} (hp : i.Placed) (hc : i.Chosen) :
    ∀ j ∈ mend Rule.all i, j.Encodable := by
  intro j hj
  have hkeeps : ∀ r ∈ Rule.all, ∀ i out, r.mend? i = some out → i.Placed ∧ i.Chosen →
      ∀ j ∈ out, j.Placed ∧ j.Chosen :=
    fun r _ i out hout hi k hk =>
      ⟨Rule.placed_of_mend? hout hi.1 hk, Rule.chosen_of_mend? hout hi.2 k hk⟩
  obtain ⟨hform, hnone⟩ := forall_mem_mend hkeeps ⟨hp, hc⟩ j hj
  exact Instr.encodable_of_none hform.1 hform.2 hnone

/-! ## Programs -/

/-- The destinations of well typed instructions are variables. -/
theorem exists_var_of_destination? {t : SymbolTable} {i : ThreeAddress.Instr} (h : i.WellTyped t) :
    ∀ v ∈ destination? i, ∃ x, v = .var x := by
  intro v hv
  cases i with
  | copy src dst | truncate src dst =>
      cases hv
      obtain ⟨σ, τ, -, ⟨x, rfl, -⟩, -⟩ := h
      exact ⟨x, rfl⟩
  | signExtend src dst | zeroExtend src dst =>
      cases hv
      obtain ⟨τ, -, ⟨x, rfl, -⟩, -⟩ := h
      exact ⟨x, rfl⟩
  | unary op src dst =>
      cases hv
      obtain ⟨τ, -, x, rfl, -⟩ := h
      exact ⟨x, rfl⟩
  | binary op left right dst =>
      cases hv
      cases op with
      | arith op | compare op =>
          obtain ⟨τ, -, -, x, rfl, -⟩ := h
          exact ⟨x, rfl⟩
      | shift op =>
          obtain ⟨τ, σ, -, -, x, rfl, -⟩ := h
          exact ⟨x, rfl⟩
      | other name => exact h.elim
  | call f args dst =>
      cases hv
      obtain ⟨params, τ, -, -, x, rfl, -⟩ := h
      exact ⟨x, rfl⟩
  | _ => cases hv

/-- A function of well typed instructions is made of encodable ones. -/
theorem Function.CompiledFrom.encodable {t : SymbolTable} {l : Layout} {f : ThreeAddress.Function}
    {g : Function} (h : Function.CompiledFrom t l f g) (hf : ThreeAddress.CodeTyped t f.body) :
    ∀ i ∈ g.instrs, i.Encodable := by
  obtain ⟨chosen, hchosen, -, rfl⟩ := h
  have hadmits : Admits (fun _ => True) fun a => a.isImm = false :=
    ⟨fun _ _ => trivial, fun _ _ => rfl⟩
  have hdst : ∀ i ∈ f.body, ∀ v ∈ destination? i, (Operand.ofValue v).isImm = false := by
    intro i hi v hv
    obtain ⟨x, rfl⟩ := exists_var_of_destination? (hf i hi) v hv
    rfl
  have hinstrs := (Function.ofCode_uses hadmits (fun _ => rfl) hdst).ok_of_eq hchosen
  have hplace : ∀ a : Operand, a.isImm = false → (l.place a).isImm = false :=
    fun a ha => (Operand.isImm_place l a).trans ha
  intro j hj
  obtain ⟨i, hi, hj⟩ := List.mem_flatMap.1 hj
  exact encodable_mend (l.placed_apply _ i hi)
    (Layout.uses_apply hinstrs (fun _ _ => trivial) hplace i hi) j hj

/-- Mending makes encodable instructions of every placed instruction that has the form of a chosen one,
and of a text that is accepted only such instructions are made. -/
theorem encodable_of_mend :
    (∀ i : Instr, i.Placed → i.Chosen → ∀ j ∈ mend Rule.all i, j.Encodable) ∧
    ∀ text c, runStages text none = .ok (some c) →
      ∀ f ∈ c.machine.functions, ∀ j ∈ f.instrs, j.Encodable := by
  refine ⟨fun i => encodable_mend, fun text c h f hf => ?_⟩
  obtain ⟨ts, tree, p, t, r, hts, htree, hp, hr, -, hm⟩ := runStages_eq_some h
  have hchecked := IntegerC.Program.checked_of_text hts htree hp
  obtain ⟨hmade, -⟩ := (ThreeAddress.Program.ofChecked_made hchecked).ok_of_eq hr
  have hcompiled := ((Program.ofThreeAddress_compiled r.1 r.2).ok_of_eq hm).2
  obtain ⟨top, htop, e⟩ := List.mem_filterMap.1 hf
  cases top with
  | function g =>
      cases e
      obtain ⟨f', hf', l, hl⟩ := TopLevel.Related.exists_of_mem hcompiled htop
      exact hl.encodable (hmade.functions f' hf').typed
  | static v => cases e

/-- The text of a program that multiplies a static variable by a constant of more than 32 bits. -/
def largeProductText : String :=
  "static long x = 3; int main(void) \x7b x = x * 1099511627776; return x << 2 < 5; \x7d"

/-- Both registers of mending are needed for the product in one instruction. -/
theorem encodable_of_mend_largeProduct :
    let i : Instr := .binary .mult .quadword (.imm 1099511627776) (.data "x")
    i.Placed ∧ i.Chosen ∧
      mend Rule.all i = [.mov .quadword (.imm 1099511627776) (.reg .r10),
        .mov .quadword (.data "x") (.reg .r11), .binary .mult .quadword (.reg .r10) (.reg .r11),
        .mov .quadword (.reg .r11) (.data "x")] ∧
      (∀ j ∈ mend Rule.all i, j.Encodable) ∧
      ∃ c, runStages largeProductText none = .ok (some c) ∧
        c.machine.functions.map Function.name = ["main"] ∧
        ∀ f ∈ c.machine.functions, ∀ j ∈ f.instrs, j.Encodable := by
  intro i
  have hplaced : i.Placed := by simp [i, Instr.Placed, Instr.operands, Operand.Placed]
  have hchosen : i.Chosen := ⟨trivial, rfl, fun h => Bool.noConfusion h⟩
  have h : ((runStages largeProductText none).toOption.bind fun o => o.bind fun c =>
      some (c.machine.functions.map Function.name)) = some ["main"] := by
    decide +kernel
  obtain ⟨o, ho, h⟩ := toOption_bind_eq_some.1 h
  obtain ⟨c, rfl, h⟩ := Option.bind_eq_some_iff.1 h
  exact ⟨hplaced, hchosen, by decide +kernel, encodable_of_mend.1 i hplaced hchosen, c, ho,
    Option.some.inj h, encodable_of_mend.2 largeProductText c ho⟩

end IntegerC.Machine
