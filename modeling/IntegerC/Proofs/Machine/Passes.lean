import Mathlib.Data.List.Forall2
import IntegerC.Compilation
import IntegerC.Proofs.Machine.Layouts

set_option autoImplicit false

/-! # The passes over machine code

The functions of a program go through the passes one by one: instructions are chosen for a function,
its variables are placed in a frame, and what cannot be encoded is mended. Static variables are handed
on as they are.
-/

namespace IntegerC.Machine

variable {t : SymbolTable}

/-! ## Top levels -/

/-- Top levels of the same kind: functions related by `R`, and the same static variable. -/
inductive TopLevel.Related (R : ThreeAddress.Function → Function → Prop) :
    ThreeAddress.TopLevel → TopLevel → Prop
  | function {f : ThreeAddress.Function} {g : Function} (h : R f g) :
      Related R (.function f) (.function g)
  | static {v : ThreeAddress.StaticVar} : Related R (.static v) (.static (.ofCode v))

/-- A walk over related elements whose step keeps a relation gives related results. -/
theorem mapM_forall₂ {α β γ : Type} {R : α → β → Prop} {Q : α → γ → Prop}
    {f : β → Except Fault γ} {xs : List α} {ys : List β} (h : List.Forall₂ R xs ys)
    (hf : ∀ x y, R x y → Answers (f y) (Q x)) : Answers (ys.mapM f) (List.Forall₂ Q xs) := by
  induction h with
  | nil => exact .pure .nil
  | cons hxy _ ih =>
      rw [List.mapM_cons]
      exact (hf _ _ hxy).bind fun z hz => ih.bind fun zs hzs => .pure (.cons hz hzs)

/-- A walk that goes on with each result has the results of the walk without that. -/
theorem mapM_map_eq {α β γ : Type} (f : α → Except Fault β) (g : β → γ) (xs : List α) :
    (xs.mapM fun x => (f x).map g) = (xs.mapM f).map (List.map g) := by
  induction xs with
  | nil => rfl
  | cons x xs ih =>
      rw [List.mapM_cons, List.mapM_cons, ih]
      cases f x with
      | error e => rfl
      | ok y => cases xs.mapM f <;> rfl

/-- A walk over a list that succeeds has succeeded in every step. -/
theorem forall₂_of_mapM_eq_ok {α β : Type} {f : α → Except Fault β} {xs : List α} {ys : List β}
    (h : xs.mapM f = .ok ys) : List.Forall₂ (fun x y => f x = .ok y) xs ys := by
  have hsame : List.Forall₂ (fun x y => x = y) xs xs := List.forall₂_same.2 fun _ _ => rfl
  refine (mapM_forall₂ hsame ?_).ok_of_eq h
  rintro x _ rfl
  exact Ensures.self _

/-- A function of the compiled program comes from one of the source program. -/
theorem TopLevel.Related.exists_of_mem {R : ThreeAddress.Function → Function → Prop}
    {tops : List ThreeAddress.TopLevel} {tops' : List TopLevel}
    (h : List.Forall₂ (Related R) tops tops') {g : Function} (hg : .function g ∈ tops') :
    ∃ f, .function f ∈ tops ∧ R f g := by
  induction h with
  | nil => cases hg
  | cons htop _ ih =>
      rcases List.mem_cons.1 hg with rfl | hg
      · cases htop with
        | function h => exact ⟨_, List.mem_cons_self, h⟩
      · exact (ih hg).imp fun f hf => ⟨List.mem_cons_of_mem _ hf.1, hf.2⟩

/-- Functions and static variables that stand apart stay apart. -/
theorem TopLevel.Related.split {R : ThreeAddress.Function → Function → Prop}
    {fs : List ThreeAddress.Function} {vs : List ThreeAddress.StaticVar} {p : Program}
    (h : List.Forall₂ (Related R) (fs.map .function ++ vs.map .static) p.topLevels) :
    List.Forall₂ R fs p.functions ∧ p.statics = vs.map .ofCode := by
  obtain ⟨tops⟩ := p
  dsimp only at h
  induction fs generalizing tops with
  | nil =>
      induction vs generalizing tops with
      | nil =>
          cases h
          exact ⟨.nil, rfl⟩
      | cons v vs ih =>
          cases h with
          | cons hv hvs =>
              cases hv
              obtain ⟨hfunctions, hstatics⟩ := ih _ hvs
              exact ⟨hfunctions, congrArg (_ :: ·) hstatics⟩
  | cons f fs ih =>
      cases h with
      | cons hf hfs =>
          cases hf with
          | function hf =>
              obtain ⟨hfunctions, hstatics⟩ := ih _ hfs
              exact ⟨.cons hf hfunctions, hstatics⟩

/-! ## Functions -/

/-- The function `g` is what the passes make of `f`, with the variables placed in `l`. -/
def Function.CompiledFrom (t : SymbolTable) (l : Layout) (f : ThreeAddress.Function)
    (g : Function) : Prop :=
  ∃ chosen, Function.ofCode t f = .ok chosen ∧
    Layout.ofInstrs (.ofTable t) chosen.instrs = .ok l ∧
    g = { chosen with instrs := (l.apply chosen.instrs).flatMap (mend Rule.all) }

/-- Code is chosen for each top level by itself. -/
theorem topLevelsCode_related (tops : List ThreeAddress.TopLevel) :
    Answers (topLevelsCode t tops)
      (List.Forall₂ (TopLevel.Related fun f g => Function.ofCode t f = .ok g) tops) := by
  induction tops with
  | nil => exact .pure .nil
  | cons top tops ih =>
      cases top with
      | function f =>
          rw [topLevelsCode]
          exact (Ensures.self (Function.ofCode t f)).bind fun g hg =>
            ih.bind fun out ho => .pure (.cons (.function hg) ho)
      | static v =>
          rw [topLevelsCode]
          exact ih.bind fun out ho => .pure (.cons .static ho)

/-- Every function of a program goes through the passes. -/
theorem Program.ofThreeAddress_compiled (p : ThreeAddress.Program) (t : SymbolTable) :
    Answers (Program.ofThreeAddress p t) (fun r => r.2 = .ofTable t ∧
      List.Forall₂ (TopLevel.Related fun f g => ∃ l, Function.CompiledFrom t l f g) p.topLevels
        r.1.topLevels) := by
  have hchosen : Answers (Program.ofCode t p) (fun q => List.Forall₂
      (TopLevel.Related fun f g => Function.ofCode t f = .ok g) p.topLevels q.topLevels) :=
    (topLevelsCode_related p.topLevels).bind fun _ ho => .pure ho
  refine hchosen.bind fun q hq => ?_
  -- the functions with places, before they are mended
  have hplaced : Answers (q.placed (.ofTable t)) (fun q => List.Forall₂ (TopLevel.Related fun f g =>
      ∃ l, Function.CompiledFrom t l f { g with instrs := g.instrs.flatMap (mend Rule.all) })
        p.topLevels q.topLevels) := by
    refine Ensures.bind (mapM_forall₂ hq fun top top' htop => ?_) fun _ ho => .pure ho
    cases htop with
    | @function f g hg =>
        refine (Layout.placeVariables_layout _ g.instrs).bind fun out ho => .pure ?_
        obtain ⟨l, hl, rfl⟩ := ho
        exact .function ⟨l, g, hg, hl, rfl⟩
    | static => exact .pure .static
  refine hplaced.bind fun q' hq' => .pure ⟨rfl, ?_⟩
  refine List.forall₂_map_right_iff.2 (hq'.imp fun top top' htop => ?_)
  cases htop with
  | function hg => exact .function hg
  | static => exact .static

end IntegerC.Machine
