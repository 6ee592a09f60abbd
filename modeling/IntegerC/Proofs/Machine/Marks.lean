import IntegerC.Proofs.Machine.Depths
import IntegerC.Proofs.Machine.Writing

set_option autoImplicit false

/-! # Labels, jumps and calls

Of an instruction, its `Mark` says which place in the code it is, leaves for or calls. The marks of
a function go through all passes unchanged and in order: what is chosen for other instructions, the
frame, and what mends an instruction have no marks. Static variables are handed on as they are.
-/

namespace IntegerC

/-- Which place in the code an instruction is, may go to, or calls. -/
inductive Mark where
  | label (name : String)
  | jump (target : String)
  | call (name : String)

def Mark.name : Mark → String
  | label l | jump l | call l => l

def Mark.label? : Mark → Option String
  | label l => some l
  | jump _ | call _ => none

def ThreeAddress.Instr.mark? : ThreeAddress.Instr → Option Mark
  | .label l => some (.label l)
  | .jump l | .jumpIfZero _ l | .jumpIfNotZero _ l => some (.jump l)
  | .call f _ _ => some (.call f)
  | _ => none

def ThreeAddress.marks (code : List ThreeAddress.Instr) : List Mark :=
  code.filterMap ThreeAddress.Instr.mark?

namespace Machine

def Instr.mark? : Instr → Option Mark
  | .label l => some (.label l)
  | .jmp l | .jmpCC _ l => some (.jump l)
  | .call f => some (.call f)
  | _ => none

def marks (code : List Instr) : List Mark := code.filterMap Instr.mark?

theorem marks_cons (i : Instr) (code : List Instr) :
    marks (i :: code) = i.mark?.toList ++ marks code := by
  unfold marks
  rw [List.filterMap_cons]
  cases i.mark? <;> rfl

/-- The marks of a piece of code are those of its sites. -/
theorem marks_eq_sites (code : List Instr) (d : Int) :
    marks code = (sites d code).filterMap (·.1.mark?) := by
  induction code generalizing d with
  | nil => rfl
  | cons i code ih =>
      rw [marks_cons, sites, List.filterMap_append, ← ih (d + i.descent)]
      cases i <;> rfl

/-- Sites that were read off three-address code have the marks of that code. -/
theorem filterMap_siteOf? (code : List ThreeAddress.Instr) (d : Int) :
    (code.filterMap (siteOf? d)).filterMap (·.1.mark?) = ThreeAddress.marks code := by
  rw [List.filterMap_filterMap, ThreeAddress.marks]
  congr 1
  funext i
  cases i <;> rfl

variable {t : SymbolTable} {s : Symbols}

/-- The marks of a function are those of its three-address code. -/
theorem Function.CompiledFrom.marks {l : Layout} {f : ThreeAddress.Function} {g : Function}
    (h : Function.CompiledFrom t l f g) : Machine.marks g.instrs = ThreeAddress.marks f.body := by
  rw [marks_eq_sites _ 0, h.depths.2.2, filterMap_siteOf?]

/-! ## Static variables -/

/-- An instruction that names static variables only in the data section. -/
def Instr.Statics (s : Symbols) (i : Instr) : Prop :=
  ∀ x, .data x ∈ i.operands → ∃ w, s.find? x = some (.object w true)

/-- Only static variables are put into the data section. -/
theorem Layout.statics_apply {l : Layout} {instrs : List Instr} (hl : ofInstrs s instrs = .ok l)
    (h : ∀ i ∈ instrs, i.Known t) : ∀ i ∈ l.apply instrs, i.Statics s := by
  unfold apply
  refine List.forall_mem_append.2 ⟨?_, fun i hi x hx => ?_⟩
  · split <;> simp [Instr.Statics, Instr.operands]
  · obtain ⟨j, hj, rfl⟩ := List.mem_map.1 hi
    rw [Instr.operands_mapOperands] at hx
    obtain ⟨a, ha, e⟩ := List.mem_map.1 hx
    have hknown := h j hj a ha
    cases a with
    | pseudo y =>
        have hy : y = x := by
          rw [place] at e
          split at e <;> cases e
          rfl
        subst hy
        have hplace := ((reserveAll_hasPlace _ empty).ok_of_eq hl).2 y
          (List.mem_flatMap.2 ⟨j, hj, ha⟩)
        exact hplace.static e
    | data y => exact hknown.elim
    | _ => cases e

/-- The operands in memory are those of the instruction that is mended. -/
theorem Rule.data_of_mend? {r : Rule} {i j : Instr} {out : List Instr} (h : r.mend? i = some out)
    (hj : j ∈ out) {x : String} (hx : .data x ∈ j.operands) : .data x ∈ i.operands := by
  have hlong : ∀ a : Operand, .data x = a.asLongword ↔ .data x = a := by
    intro a
    cases a <;> simp [Operand.asLongword]
  unfold Rule.mend? at h
  split at h
  all_goals try split at h
  all_goals try contradiction
  all_goals
    obtain rfl := Option.some.inj h
    simp only [List.mem_cons, List.not_mem_nil, or_false] at hj
    rcases hj with rfl | rfl | rfl <;>
    simp_all [Instr.operands, srcScratch, dstScratch]

/-! ## Programs -/

/-- The function `g` is what the passes make of `f`. -/
structure Function.MadeOf (s : Symbols) (f : ThreeAddress.Function) (g : Function) : Prop where
  name : g.name = f.name
  global : g.global = f.global
  marks : marks g.instrs = ThreeAddress.marks f.body
  data : ∀ i ∈ g.instrs, ∀ x, .data x ∈ i.operands → ∃ w, s.find? x = some (.object w true)

/-- A compiled function has the name, the linkage and the marks of its source, and touches only
static data. -/
theorem Function.CompiledFrom.madeOf {l : Layout} {f : ThreeAddress.Function} {g : Function}
    (h : Function.CompiledFrom t l f g) (hf : f.Made t) : Function.MadeOf (.ofTable t) f g := by
  obtain ⟨hname, hglobal, -⟩ := h.depths
  refine ⟨hname, hglobal, h.marks, ?_⟩
  obtain ⟨chosen, hchosen, hl, rfl⟩ := h
  intro i hi
  obtain ⟨j, hj, hi⟩ := List.mem_flatMap.1 hi
  have hknown := (Function.ofCode_known hf).ok_of_eq hchosen
  refine (forall_mem_mend (p := Instr.Statics (.ofTable t)) ?_
    (Layout.statics_apply hl hknown j hj) i hi).1
  exact fun r _ i out hout hi j hj x hx => hi x (Rule.data_of_mend? hout hj hx)

/-- Each top level of machine code is made of the one in the same place. -/
theorem Program.ofThreeAddress_related {p : ThreeAddress.Program} (h : p.Made t) :
    Answers (Program.ofThreeAddress p t) (fun r => r.2 = .ofTable t ∧
      List.Forall₂ (TopLevel.Related (Function.MadeOf r.2)) p.topLevels r.1.topLevels) := by
  refine (Program.ofThreeAddress_compiled p t).imp fun r hr => ⟨hr.1, ?_⟩
  have hmade : ∀ top ∈ p.topLevels, ∀ f, top = .function f → f.Made t :=
    fun top htop f e => h.functions f (e ▸ htop)
  refine ((List.forall₂_and_left _ _).2 ⟨hmade, hr.2⟩).imp fun top top' htop => ?_
  obtain ⟨htop, hrelated⟩ := htop
  cases hrelated with
  | @function f g hg =>
      obtain ⟨l, hg⟩ := hg
      exact .function (hr.1 ▸ hg.madeOf (htop f rfl))
  | static => exact .static

end Machine

end IntegerC
