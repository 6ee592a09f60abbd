import IntegerC.Proofs.Machine.Marks
import IntegerC.Proofs.Machine.Operands
import IntegerC.Proofs.Machine.Stacks

set_option autoImplicit false

/-! # The stack is balanced

Whatever path control takes through a function, the stack is exactly the frame down at each label,
jump and return, and at each call it is further down by the words for the arguments of that call,
rounded up to an even number. So it is aligned to 16 bytes wherever a function is called.
-/

namespace IntegerC.Machine

/-! ## Paths -/

/-- The label that an instruction may jump to. -/
def Instr.target? : Instr → Option String
  | .jmp l | .jmpCC _ l => some l
  | _ => none

def Instr.goesOn : Instr → Bool
  | .jmp _ | .ret => false
  | _ => true

/-- A path from the beginning of the code leads to the instruction number `k`, and the instructions on
it move the stack `d` bytes down. -/
inductive Reaches (code : List Instr) : Nat → Int → Prop
  | entry : Reaches code 0 0
  | next {k : Nat} {d : Int} {i : Instr} (h : Reaches code k d) (hi : code[k]? = some i)
      (hnext : i.goesOn = true) : Reaches code (k + 1) (d + i.descent)
  | jump {k k' : Nat} {d : Int} {i : Instr} {l : String} (h : Reaches code k d)
      (hi : code[k]? = some i) (htarget : i.target? = some l)
      (hlabel : code[k']? = some (.label l)) : Reaches code k' (d + i.descent)

/-- Where an instruction other than a call stands that is a site, the code up to there moves the stack
`frame` bytes down. -/
def Level (frame : Int) (code : List Instr) : Prop :=
  ∀ k i, code[k]? = some i → i.isSite = true → (∀ f, i ≠ .call f) → descent (code.take k) = frame

variable {code : List Instr}

theorem descent_take_succ {k : Nat} {i : Instr} (hi : code[k]? = some i) :
    descent (code.take (k + 1)) = descent (code.take k) + i.descent := by
  rw [List.take_add_one, hi, descent_append]
  exact congrArg _ (Int.add_zero _)

/-- No path moves the stack elsewhere than the code up to its end does, read from first to last. -/
theorem Reaches.depth {frame : Int} (hlevel : Level frame code) {k : Nat} {d : Int}
    (h : Reaches code k d) : d = descent (code.take k) := by
  induction h with
  | entry => rfl
  | next h hi hnext ih => rw [ih, descent_take_succ hi]
  | @jump k k' d i l h hi htarget hlabel ih =>
      have hjump : i.isSite = true ∧ (∀ f, i ≠ .call f) ∧ i.descent = 0 := by
        cases i with
        | jmp _ | jmpCC _ _ => exact ⟨rfl, by simp, rfl⟩
        | _ => cases htarget
      -- both the jump and the label are level with the frame
      have hfrom := hlevel k i hi hjump.1 hjump.2.1
      have hto := hlevel k' _ hlabel rfl (by simp)
      rw [ih, hfrom, hto, hjump.2.2, Int.add_zero]

/-- Where nothing jumps or returns, control goes through the code from first to last. -/
theorem Reaches.straight {k : Nat} (hk : k ≤ code.length)
    (h : ∀ i ∈ code.take k, i.goesOn = true) : Reaches code k (descent (code.take k)) := by
  induction k with
  | zero => exact .entry
  | succ k ih =>
      have hget : code[k]? = some code[k] := List.getElem?_eq_getElem hk
      have htake : code.take (k + 1) = code.take k ++ [code[k]] := by
        rw [List.take_add_one, hget]
        rfl
      rw [htake, List.forall_mem_append] at h
      rw [descent_take_succ hget]
      exact (ih (Nat.le_of_lt hk) h.1).next hget (h.2 _ List.mem_cons_self)

/-! ## Runs -/

/-- A machine that begins to run the code in state `m` comes to the instruction number `k` in a state,
where `calls` says what the functions do that are called. -/
inductive Visits (calls : String → State Bytes → Option (State Bytes)) (code : List Instr)
    (m : State Bytes) : Nat → State Bytes → Prop
  | entry : Visits calls code m 0 m
  | next {k : Nat} {i : Instr} {m₁ m₂ : State Bytes} (h : Visits calls code m k m₁)
      (hi : code[k]? = some i) (hstep : i.exec calls m₁ = some (.next, m₂)) :
      Visits calls code m (k + 1) m₂
  | jump {k k' : Nat} {i : Instr} {l : String} {m₁ m₂ : State Bytes} (h : Visits calls code m k m₁)
      (hi : code[k]? = some i) (hstep : i.exec calls m₁ = some (.jump l, m₂))
      (hlabel : code[k']? = some (.label l)) : Visits calls code m k' m₂

/-- The instruction neither reads nor writes the stack pointer as an operand. -/
def Instr.SparesStack (i : Instr) : Prop := i.Uses (· ≠ .reg .sp) (· ≠ .reg .sp)

/-- Code that leaves the stack pointer alone has no operand that is the stack pointer. -/
theorem Instr.SparesStack.sp_not_mem {i : Instr} (h : i.SparesStack) : .reg .sp ∉ i.operands := by
  cases i with
  | mov _ _ _ | movsx _ _ | movZeroExtend _ _ | cmp _ _ _ =>
      simpa [Instr.operands] using ⟨h.1.symm, h.2.symm⟩
  | binary _ _ _ _ => simpa [Instr.operands] using ⟨h.1.symm, h.2.1.symm⟩
  | unary _ _ _ | idiv _ _ | div _ _ | setCC _ _ | push _ =>
      simpa [Instr.operands] using Ne.symm h
  | _ => exact List.not_mem_nil

section

variable {calls : String → State Bytes → Option (State Bytes)} {m m' : State Bytes} {i : Instr}
  {x : Exit}

theorem State.setReg_sp (m : State Bytes) {r : Reg} (h : r ≠ .sp) {n : Nat} (v : BitVec n) :
    (m.setReg r v).regs .sp = m.regs .sp :=
  if_neg (Ne.symm h)

/-- Writing any other operand leaves the stack pointer where it is. -/
theorem State.write_sp {n : Nat} {v : BitVec n} {a : Operand} (h : m.write v a = some m')
    (ha : a ≠ .reg .sp) : m'.regs .sp = m.regs .sp := by
  have hstore : ∀ b, (Memory.store m.memory b v).map (State.mk m.regs m.flags) = some m' →
      m'.regs .sp = m.regs .sp := by
    intro b hb
    obtain ⟨memory, -, rfl⟩ := Option.map_eq_some_iff.1 hb
    rfl
  cases a with
  | imm k => cases h
  | reg r =>
      cases h
      exact m.setReg_sp (fun e => ha (e ▸ rfl)) v
  | pseudo y => exact hstore (.pseudo y) h
  | stack k => exact hstore (.stack k) h
  | data y => exact hstore (.data y) h

/-- Division writes two registers, none of them the stack pointer. -/
theorem State.divide_sp {signed : Bool} {n : Nat} {a : Operand}
    (h : m.divide signed n a = some m') : m'.regs .sp = m.regs .sp := by
  simp only [State.divide, Option.bind_eq_bind, Option.bind_eq_some_iff] at h
  obtain ⟨divisor, -, ⟨quotient, remainder⟩, -, h⟩ := h
  cases h
  have hdx : Reg.dx ≠ .sp := by decide
  have hax : Reg.ax ≠ .sp := by decide
  exact (State.setReg_sp _ hdx remainder).trans (m.setReg_sp hax quotient)

/-- An instruction goes on, jumps to its target or returns. -/
theorem Instr.exec_exit (h : i.exec calls m = some (x, m')) :
    (x = .next → i.goesOn = true) ∧ ∀ l, x = .jump l → i.target? = some l := by
  cases i <;> simp [Instr.exec, Instr.effect, Option.bind_eq_some_iff] at h <;>
    grind [Instr.goesOn, Instr.target?]

/-- The stack pointer moves as far as the instruction says. -/
theorem Instr.exec_sp (hcalls : ∀ f m m', calls f m = some m' → m'.regs .sp = m.regs .sp)
    (hi : i.SparesStack) (h : i.exec calls m = some (x, m')) :
    m'.regs .sp = m.regs .sp - BitVec.ofInt 64 i.descent := by
  -- all but three kinds of instructions leave the stack pointer where it is
  have hsame : m'.regs .sp = m.regs .sp → m'.regs .sp = m.regs .sp - BitVec.ofInt 64 0 :=
    fun e => e.trans (BitVec.sub_zero _).symm
  simp only [Instr.exec, Instr.effect, Option.bind_eq_bind] at h
  cases i with
  | allocateStack n =>
      cases h
      refine (m.moveStack_sp _).trans ?_
      rw [Instr.descent, BitVec.ofInt_neg, BitVec.sub_eq_add_neg]
  | deallocateStack n =>
      cases h
      refine (m.moveStack_sp _).trans ?_
      rw [Instr.descent, BitVec.ofInt_neg, BitVec.sub_neg]
  | push a =>
      obtain ⟨v, -, h⟩ := Option.bind_eq_some_iff.1 h
      cases h
      exact m.push_sp v
  | call f =>
      obtain ⟨m₁, hcall, h⟩ := Option.bind_eq_some_iff.1 h
      cases h
      exact hsame (hcalls f m m' hcall)
  | mov w src dst | movsx src dst | movZeroExtend src dst =>
      simp only [Option.bind_eq_some_iff] at h
      obtain ⟨v, -, m₁, hwrite, h⟩ := h
      cases h
      exact hsame (State.write_sp hwrite hi.2)
  | unary op w a =>
      simp only [Option.bind_eq_some_iff] at h
      obtain ⟨v, -, m₁, hwrite, h⟩ := h
      have hwritten := State.write_sp hwrite hi
      cases op <;> cases h <;> exact hsame hwritten
  | binary op w src dst =>
      simp only [Option.bind_eq_some_iff] at h
      obtain ⟨v, -, u, -, m₁, hwrite, h⟩ := h
      have hwritten := State.write_sp hwrite hi.2.1
      cases h
      exact hsame hwritten
  | setCC c a =>
      simp only [Option.bind_eq_some_iff] at h
      obtain ⟨flags, -, m₁, hwrite, h⟩ := h
      cases h
      exact hsame (State.write_sp hwrite hi)
  | cmp w src dst =>
      simp only [Option.bind_eq_some_iff] at h
      obtain ⟨v, -, u, -, h⟩ := h
      cases h
      exact hsame rfl
  | idiv w a | div w a =>
      obtain ⟨m₁, hdivide, h⟩ := Option.bind_eq_some_iff.1 h
      cases h
      exact hsame (State.divide_sp hdivide)
  | cdq w =>
      cases h
      exact hsame (m.setReg_sp (by decide) _)
  | jmpCC c target =>
      obtain ⟨flags, -, h⟩ := Option.bind_eq_some_iff.1 h
      cases h
      exact hsame rfl
  | jmp _ | label _ | ret =>
      cases h
      exact hsame rfl

/-- A run follows a path, and moves the stack pointer as far as the path says. -/
theorem Visits.exists_reaches {code : List Instr} {k : Nat}
    (hcalls : ∀ f m m', calls f m = some m' → m'.regs .sp = m.regs .sp)
    (hcode : ∀ i ∈ code, i.SparesStack) (h : Visits calls code m k m') :
    ∃ d, Reaches code k d ∧ m'.regs .sp = m.regs .sp - BitVec.ofInt 64 d := by
  have hmove : ∀ {i : Instr} {m₁ m₂ : State Bytes} {x : Exit} {d : Int}, i.SparesStack →
      i.exec calls m₁ = some (x, m₂) → m₁.regs .sp = m.regs .sp - BitVec.ofInt 64 d →
        m₂.regs .sp = m.regs .sp - BitVec.ofInt 64 (d + i.descent) := by
    intro i m₁ m₂ x d hi hstep hsp
    rw [Instr.exec_sp hcalls hi hstep, hsp, BitVec.ofInt_add]
    bv_omega
  induction h with
  | entry => exact ⟨0, .entry, (BitVec.sub_zero _).symm⟩
  | next h hi hstep ih =>
      obtain ⟨d, hd, hsp⟩ := ih
      have hexit := Instr.exec_exit hstep
      exact ⟨_, hd.next hi (hexit.1 rfl), hmove (hcode _ (List.mem_of_getElem? hi)) hstep hsp⟩
  | jump h hi hstep hlabel ih =>
      obtain ⟨d, hd, hsp⟩ := ih
      have hexit := Instr.exec_exit hstep
      exact ⟨_, hd.jump hi (hexit.2 _ rfl) hlabel,
        hmove (hcode _ (List.mem_of_getElem? hi)) hstep hsp⟩

end

/-! ## Functions -/

/-- Labels, jumps and returns of a function stand at the depth of the frame, and calls below the words
for their arguments. Up to a call there are the same labels, jumps and calls as in three-address code.
If calls give the stack pointer back, it is as far down as the path says. -/
structure Function.Balanced (frame : Nat) (f : ThreeAddress.Function) (g : Function) : Prop where
  aligned : 16 ∣ frame
  joints : ∀ k d i, Reaches g.instrs k d → g.instrs[k]? = some i → i.isSite = true →
    (∀ name, i ≠ .call name) → d = frame
  calls : ∀ k d name, Reaches g.instrs k d → g.instrs[k]? = some (.call name) →
    ∃ before args dst behind, f.body = before ++ .call name args dst :: behind ∧
      marks (g.instrs.take k) = ThreeAddress.marks before ∧
      d = frame + 8 * evenUp (args.length - argumentRegs.length) ∧ 16 ∣ d
  pointer : ∀ calls m k m', (∀ f m m', calls f m = some m' → m'.regs .sp = m.regs .sp) →
    Visits calls g.instrs m k m' →
      ∃ d, Reaches g.instrs k d ∧ m'.regs .sp = m.regs .sp - BitVec.ofInt 64 d

section

variable {t : SymbolTable} {l : Layout} {f : ThreeAddress.Function} {g : Function} {k : Nat}
  {i : Instr}

/-- Each site of a function was chosen for an instruction that has it. -/
theorem Function.CompiledFrom.exists_site (h : Function.CompiledFrom t l f g)
    (hi : g.instrs[k]? = some i) (hsite : i.isSite = true) :
    ∃ before j behind, f.body = before ++ j :: behind ∧
      Machine.marks (g.instrs.take k) = ThreeAddress.marks before ∧
      siteOf? l.size j = some (i, descent (g.instrs.take k)) := by
  obtain ⟨rest, hrest⟩ := exists_sites_append hi hsite 0
  rw [h.depths.2.2, Int.zero_add] at hrest
  obtain ⟨as, bs, hbody, hbefore, hbs⟩ := List.filterMap_eq_append_iff.1 hrest
  obtain ⟨quiet, j, behind, rfl, hquiet, hj, -⟩ := List.filterMap_eq_cons_iff.1 hbs
  refine ⟨as ++ quiet, j, behind, by rw [hbody, List.append_assoc], ?_, hj⟩
  have hsites : (as ++ quiet).filterMap (siteOf? l.size) = sites 0 (g.instrs.take k) := by
    rw [List.filterMap_append, hbefore, List.filterMap_eq_nil_iff.2 hquiet, List.append_nil]
  rw [marks_eq_sites _ 0, ← hsites, filterMap_siteOf?]

/-- In a compiled function every label, jump and return stands with the whole frame reserved. -/
theorem Function.CompiledFrom.level (h : Function.CompiledFrom t l f g) :
    Level l.size g.instrs := by
  intro k i hi hsite hcall
  obtain ⟨-, j, -, -, -, hj⟩ := h.exists_site hi hsite
  cases j with
  | call name args dst =>
      exact absurd (Prod.mk.inj (Option.some.inj hj)).1.symm (hcall name)
  | label _ | jump _ | jumpIfZero _ _ | jumpIfNotZero _ _ | ret _ =>
      exact (Prod.mk.inj (Option.some.inj hj)).2.symm
  | _ => cases hj

/-- No instruction of a function names the stack pointer. -/
theorem Function.CompiledFrom.sparesStack (h : Function.CompiledFrom t l f g) :
    ∀ i ∈ g.instrs, i.SparesStack := by
  obtain ⟨chosen, hchosen, -, rfl⟩ := h
  have hadmits : Admits (· ≠ .reg .sp) (· ≠ .reg .sp) :=
    ⟨fun _ h => h, fun r hr e => hr (Operand.reg.inj e)⟩
  have hvalue : ∀ v, Operand.ofValue v ≠ .reg .sp := hadmits.value
  have hinstrs := (Function.ofCode_uses hadmits (fun _ => Operand.noConfusion)
    fun _ _ v _ => hvalue v).ok_of_eq hchosen
  have hplace : ∀ a, a ≠ .reg .sp → l.place a ≠ .reg .sp := by
    intro a ha
    cases a with
    | pseudo x =>
        rw [Layout.place]
        split <;> exact Operand.noConfusion
    | _ => exact ha
  have hclip : ∀ a : Operand, a ≠ .reg .sp → a.asLongword ≠ .reg .sp := by
    intro a ha
    cases a with
    | imm n => exact Operand.noConfusion
    | _ => exact ha
  intro i hi
  obtain ⟨j, hj, hi⟩ := List.mem_flatMap.1 hi
  refine (forall_mem_mend (p := Instr.SparesStack) (fun r _ i out hout hi => ?_)
    (Layout.uses_apply hinstrs hplace hplace j hj) i hi).1
  exact Rule.uses_of_mend? (fun _ h => h) hclip hclip (by decide) (by decide) hout hi

/-- What the passes make of a function is balanced: the depths are those of the code that is chosen,
and neither placing nor mending changes them. -/
theorem Function.CompiledFrom.balanced (h : Function.CompiledFrom t l f g) :
    Function.Balanced l.size f g := by
  have hframe : 16 ∣ l.size := Layout.dvd_alignUp _ _
  refine ⟨hframe, fun k d i hk hi hsite hcall => ?_, fun k d name hk hi => ?_,
    fun calls m k m' hcalls hm => hm.exists_reaches hcalls h.sparesStack⟩
  · rw [hk.depth h.level, h.level k i hi hsite hcall]
  · obtain ⟨before, j, behind, hbody, hmarks, hj⟩ := h.exists_site hi rfl
    rw [← hk.depth h.level] at hj
    cases j with
    | call name' args dst =>
        obtain ⟨hname, hd⟩ := Prod.mk.inj (Option.some.inj hj)
        cases hname
        refine ⟨before, args, dst, behind, hbody, hmarks, hd.symm, ?_⟩
        unfold evenUp at hd
        omega
    | _ => cases hj

/-- Where a function calls another one, the stack is aligned if it was so at the beginning. -/
theorem Function.Balanced.aligned_call {frame : Nat} (h : Function.Balanced frame f g)
    {calls : String → State Bytes → Option (State Bytes)} {m m' : State Bytes} {name : String}
    (hcalls : ∀ f m m', calls f m = some m' → m'.regs .sp = m.regs .sp)
    (hm : Visits calls g.instrs m k m') (hi : g.instrs[k]? = some (.call name))
    (haligned : 16 ∣ (m.regs .sp).toNat) : 16 ∣ (m'.regs .sp).toNat := by
  obtain ⟨d, hd, hsp⟩ := h.pointer calls m k m' hcalls hm
  obtain ⟨-, -, -, -, -, -, -, h16⟩ := h.calls k d name hd hi
  rw [hsp, BitVec.toNat_sub, BitVec.toNat_ofInt]
  omega

end

/-- Every function of a program is balanced, whatever the program. -/
theorem Program.ofThreeAddress_balanced {p : ThreeAddress.Program} {t : SymbolTable}
    {r : Program × Symbols} (h : Program.ofThreeAddress p t = .ok r) :
    List.Forall₂ (TopLevel.Related fun f g =>
      ∃ l, Function.CompiledFrom t l f g ∧ Function.Balanced l.size f g) p.topLevels
        r.1.topLevels := by
  have hcompiled := ((Program.ofThreeAddress_compiled p t).ok_of_eq h).2
  refine hcompiled.imp fun top top' htop => ?_
  cases htop with
  | function hg =>
      obtain ⟨l, hl⟩ := hg
      exact .function ⟨l, hl, hl.balanced⟩
  | static => exact .static

/-- A loop around a call with seven arguments. The call is reached with the frame and two words on the
stack: the seventh argument and a word in front of it. -/
theorem Program.ofThreeAddress_balanced_sevenArguments :
    let t : SymbolTable := [("x", .automatic .int)]
    let f : ThreeAddress.Function := ⟨"f", true, ["x"],
      [.label "again", .call "g" (List.replicate 7 (.var "x")) (.var "x"),
        .jumpIfNotZero (.var "x") "again", .ret (.var "x")]⟩
    let x : Operand := .stack (-4)
    let code : List Instr :=
      [.allocateStack 16, .mov .longword (.reg .di) x, .label "again", .allocateStack 8] ++
        argumentRegs.map (fun r => .mov .longword x (.reg r)) ++
        [.mov .longword x (.reg .ax), .push (.reg .ax), .call "g", .deallocateStack 16,
          .mov .longword (.reg .ax) x, .cmp .longword (.imm 0) x, .jmpCC .ne "again",
          .mov .longword x (.reg .ax), .ret]
    ∃ l, Program.ofThreeAddress ⟨[.function f]⟩ t =
        .ok (⟨[.function ⟨"f", true, code⟩]⟩, .ofTable t) ∧
      Function.CompiledFrom t l f ⟨"f", true, code⟩ ∧
      Function.Balanced l.size f ⟨"f", true, code⟩ ∧
      code[12]? = some (.call "g") ∧ Reaches code 12 (16 + 16) := by
  intro t f x code
  have h : Program.ofThreeAddress ⟨[.function f]⟩ t =
      .ok (⟨[.function ⟨"f", true, code⟩]⟩, .ofTable t) := by
    have heval : (Program.ofThreeAddress ⟨[.function f]⟩ t).toOption.bind some =
        some (⟨[.function ⟨"f", true, code⟩]⟩, .ofTable t) := by
      decide +kernel
    obtain ⟨r, hr, e⟩ := toOption_bind_eq_some.1 heval
    rw [hr, Option.some.inj e]
  have hreaches : Reaches code 12 (descent (code.take 12)) :=
    .straight (by decide) (by decide)
  cases Program.ofThreeAddress_balanced h with
  | cons hf _ =>
      cases hf with
      | function hg =>
          obtain ⟨l, hcompiled, hbalanced⟩ := hg
          exact ⟨l, h, hcompiled, hbalanced, rfl, hreaches⟩

end IntegerC.Machine
