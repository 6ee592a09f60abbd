import IntegerC.Proofs.Machine.Choice
import IntegerC.Proofs.Machine.Stacks
import Mathlib.Data.List.Forall2

set_option autoImplicit false

/-! # Arguments on their way

The code of a call loads the first arguments into registers and pushes the others, the last one
first. It is followed on any machine with a stack and for any places of the variables, as long as
the stack and the variables keep out of each other's way. A function that is called then finds the
words that were pushed above its frame.
-/

namespace IntegerC.Machine

open StackMemory (bytes setBytes)
open ThreeAddress (Value)

variable {M : Type} [Memory M] {types : VarTypes} {t : SymbolTable}

/-- Only variables without places are given other ones. -/
def Operand.Placing (place : Operand → Operand) : Prop := ∀ a, (∀ x, a ≠ .pseudo x) → place a = a

/-! ## Loading registers -/

section

variable [StackMemory M] (calls : String → State M → Option (State M)) {place : Operand → Operand}
  {s : Store t.varTypes}

/-- The operand `a` holds the value `v`, whatever the registers and the `n` bytes below `top`
hold. -/
def State.Lasts (m : State M) (s : Store types) (top : BitVec 64) (n : Nat) (a : Operand)
    (v : Value) : Prop :=
  ∀ m' : State M, m'.memory = setBytes m.memory (bytes m'.memory) →
    (bytes m.memory).SameOutside top n (bytes m'.memory) →
      m'.read (Width.ofType (v.type types)).bits a = some (BitVec.ofInt _ (v.eval s))

theorem State.Lasts.read {m : State M} {top : BitVec 64} {n : Nat} {a : Operand} {v : Value}
    (h : m.Lasts s top n a v) :
    m.read (Width.ofType (v.type t.varTypes)).bits a = some (BitVec.ofInt _ (v.eval s)) :=
  h m (StackMemory.setBytes_bytes _).symm (.refl _)

/-- The registers `rs` were loaded with the values `vs`, and nothing else was touched. -/
structure Loaded (s : Store types) (vs : List Value) (rs : List Reg) (m m' : State M) : Prop where
  memory : m'.memory = m.memory
  regs : ∀ r, r ∉ rs → m'.regs r = m.regs r
  holds : ∀ (i : Nat) v r, vs[i]? = some v → rs[i]? = some r →
    m'.read (Width.ofType (v.type types)).bits (.reg r) = some (BitVec.ofInt _ (v.eval s))

/-- A register that was loaded is not touched again. -/
theorem registerArguments_runs (hplace : Operand.Placing place) (vs : List Value)
    (hvs : ∀ v ∈ vs, ∃ τ, v.HasType t τ) :
    ∀ rs : List Reg, rs.Nodup → Succeeds (registerArguments t vs rs) fun moves =>
      ∀ (m : State M) top n, (∀ v ∈ vs, m.Lasts s top n (place (.ofValue v)) v) →
        ∃ m', performAll calls m (moves.map (Instr.mapOperands place)) = some (.next, m') ∧
          Loaded s vs rs m m' := by
  induction vs with
  | nil =>
      intro rs _
      exact .pure fun m _ _ _ => ⟨m, rfl, rfl, fun _ _ => rfl, fun _ _ _ h => by cases h⟩
  | cons v vs ih =>
      intro rs hrs
      obtain ⟨⟨τ, hv⟩, hvs⟩ := List.forall_mem_cons.1 hvs
      cases rs with
      | nil => exact .pure fun m _ _ _ => ⟨m, rfl, rfl, fun _ _ => rfl, fun _ _ _ _ h => by cases h⟩
      | cons r rs =>
          obtain ⟨hr, hrs⟩ := List.nodup_cons.1 hrs
          obtain rfl := hv.type_eq
          rw [registerArguments, valueWidth_eq hv]
          refine (ih hvs rs hrs).bind fun moves hmoves => .pure fun m top n hm => ?_
          obtain ⟨hlast, hlasts⟩ := List.forall_mem_cons.1 hm
          let m₁ := m.setReg r (BitVec.ofInt (Width.ofType (v.type t.varTypes)).bits (v.eval s))
          obtain ⟨m', hrun, hloaded⟩ := hmoves m₁ top n hlasts
          have hload : (Instr.mov (.ofType (v.type t.varTypes)) (place (.ofValue v))
              (place (.reg r))).perform calls m = some (.next, m₁) := by
            rw [hplace (.reg r) (fun _ e => by cases e)]
            exact perform_load hlast.read r
          refine ⟨m', (performAll_cons hload).trans hrun, hloaded.memory, fun r' hr' => ?_, ?_⟩
          -- no register is used twice, so the later moves leave this one alone
          · obtain ⟨hne, hr'⟩ := not_or.1 (mt List.mem_cons.2 hr')
            exact (hloaded.regs r' hr').trans (if_neg hne)
          · intro i v' r' hv' hr'
            cases i with
            | zero =>
                cases hv'
                cases hr'
                obtain ⟨hlow, hhigh⟩ := (Width.ofType (v.type t.varTypes)).bits_bounds
                have hread : m₁.read _ (.reg r) = some _ :=
                  State.read_setReg hlow hhigh (Nat.le_refl _)
                rw [BitVec.setWidth_eq] at hread
                rw [← hread]
                show some ((m'.regs r).setWidth _) = _
                rw [hloaded.regs r hr]
                rfl
            | succ i => exact hloaded.holds i v' r' hv' hr'

/-! ## Pushing -/

def Value.Fits (s : Store types) (v : Value) (w : BitVec 64) : Prop :=
  w.setWidth (Width.ofType (v.type types)).bits = BitVec.ofInt _ (v.eval s)

def pushCode : Width → Operand → List Instr
  | .quadword, a => [.push a]
  | .longword, a => [.mov .longword a (.reg .ax), .push (.reg .ax)]

theorem pushArgument_var {x : String} {τ : IntType} (h : (Value.var x).HasType t τ) :
    pushArgument t (.var x) = .ok (pushCode (.ofType τ) (.pseudo x)) := by
  rw [pushArgument, valueWidth_eq h]
  cases Width.ofType τ <;> rfl

/-- Above a longword the word is filled with zeros. -/
theorem pushCode_runs (hplace : Operand.Placing place) {w : Width} {a : Operand} {v : BitVec w.bits}
    {m m' : State M} {ws : List (BitVec 64)} (h : Pushed m m' ws)
    (ha : m'.read w.bits (place a) = some v) (hroom : 8 * (ws.length + 1) ≤ 2 ^ 64) :
    ∃ m'' word, performAll calls m' ((pushCode w a).map (Instr.mapOperands place)) =
        some (.next, m'') ∧ Pushed m m'' (word :: ws) ∧ word.setWidth w.bits = v := by
  cases w with
  | quadword =>
      exact ⟨_, _, performAll_cons (perform_push ha), h.push _ hroom, BitVec.setWidth_eq _⟩
  | longword =>
      have hax : place (.reg .ax) = .reg .ax := hplace _ fun _ e => by cases e
      have hload : (Instr.mov .longword (place a) (place (.reg .ax))).perform calls m' =
          some (.next, m'.setReg .ax v) := by
        rw [hax]
        exact perform_load ha .ax
      have hpush : (m'.setReg .ax v).read 64 (place (.reg .ax)) = some (v.setWidth 64) := by
        rw [hax]
        exact congrArg some (BitVec.setWidth_eq _)
      refine ⟨_, _, (performAll_cons hload).trans (performAll_cons (perform_push hpush)),
        (h.setReg v).push _ hroom, ?_⟩
      exact (BitVec.setWidth_setWidth_of_le v (by decide)).trans (BitVec.setWidth_eq v)

/-- The word that a push leaves on the stack holds the argument. A longword in memory goes through
`ax`, whose upper half is then unknown. -/
theorem pushArgument_runs (hplace : Operand.Placing place) {v : Value} {τ : IntType}
    (hv : v.HasType t τ) :
    Succeeds (pushArgument t v) fun code => ∀ (m m' : State M) (ws : List (BitVec 64)) n,
      Pushed m m' ws → m.Lasts s (m.regs .sp) n (place (.ofValue v)) v →
      8 * (ws.length + 1) ≤ n → n ≤ 2 ^ 64 →
        ∃ m'' word, performAll calls m' (code.map (Instr.mapOperands place)) = some (.next, m'') ∧
          Pushed m m'' (word :: ws) ∧ Value.Fits s v word := by
  obtain rfl := hv.type_eq
  cases v with
  | constant c =>
      refine .pure fun m m' ws n h _ hn hroom => ?_
      have hread : m'.read 64 (place (.imm c.value)) = some (BitVec.ofInt 64 c.value) := by
        rw [hplace (.imm c.value) (fun _ e => by cases e)]
        rfl
      refine ⟨_, _, performAll_cons (perform_push hread), h.push _ (by omega), ?_⟩
      rw [Value.Fits, setWidth_ofInt (Width.bits_bounds _).2]
      exact (IntType.ofInt_wrap c.type c.value).symm
  | var x =>
      rw [pushArgument_var hv]
      exact .pure fun m m' ws n h hlasts hn hroom =>
        pushCode_runs calls hplace h (hlasts _ h.memory (h.same.mono (by omega))) (by omega)

/-- The values end up on the stack in the order of the list that is pushed from its end. -/
theorem pushArguments_runs (hplace : Operand.Placing place) (vs : List Value)
    (hvs : ∀ v ∈ vs, ∃ τ, v.HasType t τ) :
    Succeeds (pushArguments t vs) fun code => ∀ (m m' : State M) done (ws : List (BitVec 64)) n,
      Pushed m m' ws → List.Forall₂ (Value.Fits s) done ws →
      (∀ v ∈ vs, m.Lasts s (m.regs .sp) n (place (.ofValue v)) v) →
      8 * (vs.length + ws.length) ≤ n → n ≤ 2 ^ 64 →
        ∃ m'' ws', performAll calls m' (code.map (Instr.mapOperands place)) = some (.next, m'') ∧
          Pushed m m'' ws' ∧ List.Forall₂ (Value.Fits s) (vs.reverse ++ done) ws' := by
  induction vs with
  | nil =>
      rw [pushArguments]
      exact .pure fun m m' done ws n h hdone _ _ _ => ⟨m', ws, rfl, h, hdone⟩
  | cons v vs ih =>
      obtain ⟨⟨τ, hv⟩, hvs⟩ := List.forall_mem_cons.1 hvs
      rw [pushArguments]
      refine (pushArgument_runs (s := s) calls hplace hv).bind fun code hcode =>
        (ih hvs).bind fun codes hcodes =>
        .pure fun m m' done ws n h hdone hlasts hn hroom => ?_
      obtain ⟨hlast, hlasts⟩ := List.forall_mem_cons.1 hlasts
      rw [List.length_cons] at hn
      obtain ⟨m₁, word, hrun, hpushed, hfits⟩ := hcode m m' ws n h hlast (by omega) hroom
      obtain ⟨m₂, ws', hrun', hpushed', hfits'⟩ := hcodes m m₁ (v :: done) (word :: ws) n hpushed
        (.cons hfits hdone) hlasts (by rw [List.length_cons]; omega) hroom
      refine ⟨m₂, ws', ?_, hpushed', ?_⟩
      · rw [List.map_append, performAll_append hrun, hrun']
      · rwa [List.reverse_cons, List.append_assoc]

/-! ## The code before a call -/

/-- The bytes by which a call with `n` arguments moves the stack. -/
def bytesFor (n : Nat) : Nat := paddingFor (n - argumentRegs.length) + 8 * (n - argumentRegs.length)

/-- The code of a call up to the call. -/
def passing (t : SymbolTable) (args : List Value) : Except Fault (List Instr) := do
  let stackArgs := args.drop argumentRegs.length
  let moves ← registerArguments t args argumentRegs
  let pushes ← pushArguments t stackArgs.reverse
  return allocate (paddingFor stackArgs.length) ++ moves ++ pushes

/-- The code of a call is the code that passes the arguments, the call, and what takes the arguments
off the stack and stores the result. -/
theorem callCode_eq {args : List Value} {dst : Value} {τ : IntType} (hdst : dst.HasType t τ)
    (name : String) :
    callCode t name args dst = (passing t args).map fun pass => pass ++ .call name ::
      (deallocate (8 * (args.drop argumentRegs.length).length +
        paddingFor (args.drop argumentRegs.length).length) ++
          [.mov (.ofType τ) (.reg .ax) (.ofValue dst)]) := by
  rw [callCode, passing, valueWidth_eq hdst]
  cases registerArguments t args argumentRegs with
  | error f => rfl
  | ok moves =>
      cases pushArguments t (args.drop argumentRegs.length).reverse with
      | error f => rfl
      | ok pushes =>
          refine congrArg Except.ok ?_
          simp only [List.append_assoc, List.cons_append, List.nil_append]

/-- Making room on the stack changes no register but the stack pointer. -/
theorem allocate_runs (place : Operand → Operand) (m : State M) (n : Nat) :
    ∃ m', performAll calls m ((allocate n).map (Instr.mapOperands place)) = some (.next, m') ∧
      m'.memory = m.memory ∧ m'.regs .sp = m.regs .sp - BitVec.ofNat 64 n ∧
      ∀ r, r ≠ .sp → m'.regs r = m.regs r := by
  unfold allocate
  split
  · rename_i h
    subst h
    exact ⟨m, rfl, rfl, (BitVec.sub_zero _).symm, fun _ _ => rfl⟩
  · refine ⟨_, performAll_cons rfl, StackMemory.setBytes_bytes _, ?_, fun r hr => if_neg hr⟩
    have hneg : BitVec.ofInt 64 (-(n : Int)) = -BitVec.ofNat 64 n := by
      rw [BitVec.ofInt_neg, BitVec.ofInt_natCast]
    show (m.stack.moveStack (-n)).regs .sp = _
    rw [State.moveStack_sp, hneg, BitVec.sub_eq_add_neg]
    rfl

/-- Registers and the top of the stack hold the arguments, in the order of the parameters. -/
structure Passed (s : Store types) (args : List Value) (m : State M) : Prop where
  regs : ∀ (i : Nat) v r, args[i]? = some v → argumentRegs[i]? = some r →
    m.read (Width.ofType (v.type types)).bits (.reg r) = some (BitVec.ofInt _ (v.eval s))
  words : ∃ ws, (bytes m.memory).Words (m.regs .sp) ws ∧
    List.Forall₂ (Value.Fits s) (args.drop argumentRegs.length) ws

/-- The registers are loaded first and stay as they are while the other arguments are pushed. Each
argument lasts until it is its turn, since the pushes only write below the top of the stack. -/
theorem passing_runs (hplace : Operand.Placing place) (args : List Value)
    (hargs : ∀ v ∈ args, ∃ τ, v.HasType t τ) :
    Succeeds (passing t args) fun pass => ∀ m : State M,
      (∀ v ∈ args, m.Lasts s (m.regs .sp) (bytesFor args.length) (place (.ofValue v)) v) →
      bytesFor args.length ≤ 2 ^ 64 →
        ∃ m', performAll calls m (pass.map (Instr.mapOperands place)) = some (.next, m') ∧
          Passed s args m' := by
  have hstack : ∀ v ∈ (args.drop argumentRegs.length).reverse, v ∈ args :=
    fun v hv => List.mem_of_mem_drop (List.mem_reverse.1 hv)
  rw [passing]
  refine (registerArguments_runs (s := s) calls hplace args hargs argumentRegs (by decide)).bind
    fun moves hmoves => (pushArguments_runs (s := s) calls hplace _
      fun v hv => hargs v (hstack v hv)).bind fun pushes hpushes =>
        .pure fun m hlasts hroom => ?_
  -- the padding leaves the memory alone
  obtain ⟨m₁, hrun₁, hmemory₁, hsp₁, -⟩ :=
    allocate_runs calls place m (paddingFor (args.drop argumentRegs.length).length)
  have hlasts₁ : ∀ v ∈ args, m₁.Lasts s (m₁.regs .sp) (8 * (args.length - argumentRegs.length))
      (place (.ofValue v)) v := by
    intro v hv m' hm' hsame
    rw [hmemory₁] at hm' hsame
    rw [hsp₁, List.length_drop] at hsame
    exact hlasts v hv m' hm' ((Bytes.SameOutside.refl _).trans hsame)
  obtain ⟨m₂, hrun₂, hloaded⟩ := hmoves m₁ _ _ hlasts₁
  have hsp₂ : m₂.regs .sp = m₁.regs .sp := hloaded.regs .sp (by decide)
  have hlasts₂ : ∀ v ∈ (args.drop argumentRegs.length).reverse, m₂.Lasts s (m₂.regs .sp)
      (8 * (args.length - argumentRegs.length)) (place (.ofValue v)) v := by
    intro v hv m' hm' hsame
    rw [hloaded.memory] at hm' hsame
    rw [hsp₂] at hsame
    exact hlasts₁ v (hstack v hv) m' hm' hsame
  unfold bytesFor at hroom
  obtain ⟨m₃, ws, hrun₃, hpushed, hfits⟩ := hpushes m₂ m₂ [] [] _ (.refl m₂) .nil hlasts₂
    (by rw [List.length_reverse, List.length_drop]; exact Nat.le_refl _) (by omega)
  rw [List.reverse_reverse, List.append_nil] at hfits
  refine ⟨m₃, ?_, fun i v r hv hr => ?_, ws, hpushed.words, hfits⟩
  · rw [List.map_append, List.map_append, List.append_assoc, performAll_append hrun₁,
      performAll_append hrun₂, hrun₃]
  · have hmem : r ∈ argumentRegs := List.mem_of_getElem? hr
    have hax : r ≠ .ax := fun e => absurd (e ▸ hmem) (by decide)
    have hsp : r ≠ .sp := fun e => absurd (e ▸ hmem) (by decide)
    rw [← hloaded.holds i v r hv hr]
    show some ((m₃.regs r).setWidth _) = _
    rw [hpushed.regs r hax hsp]
    rfl

end

/-! ## Entering the function -/

namespace State

variable (m : State Bytes) (ret : BitVec 64)

theorem rebase_regs : m.rebase.regs = m.regs := rfl

theorem rebase_base : m.rebase.memory.base = m.regs .sp := rfl

theorem rebase_byte : m.rebase.memory.byte = m.memory.byte := rfl

theorem enter_regs {r : Reg} (h : r ≠ .sp) : (m.enter ret).regs r = m.regs r := by
  rw [enter, rebase_regs, push_regs _ _ h, push_regs _ _ h]

/-- Above the new base stand the old one, the address to return to, and what was pushed. -/
theorem enter_words {ws : List (BitVec 64)} (h : m.memory.Words (m.regs .sp) ws)
    (hroom : 8 * (ws.length + 2) ≤ 2 ^ 64) :
    (m.enter ret).memory.Words (m.enter ret).memory.base (m.memory.base :: ret :: ws) := by
  have hret : (m.push ret).memory.Words ((m.push ret).regs .sp) (ret :: ws) := by
    rw [push_memory, push_sp]
    exact h.cons ret (by omega)
  have hold : ((m.push ret).push m.memory.base).memory.Words
      (((m.push ret).push m.memory.base).regs .sp) (m.memory.base :: ret :: ws) := by
    rw [push_memory (m.push ret), push_sp (m.push ret)]
    exact hret.cons m.memory.base (by rw [List.length_cons]; omega)
  rw [enter, rebase_base]
  exact hold.congr (rebase_byte _)

end State

end IntegerC.Machine
