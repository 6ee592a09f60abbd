import IntegerC.Proofs.Agreement
import IntegerC.Proofs.Names
import IntegerC.Proofs.Respelling.Likeness
import IntegerC.Proofs.Respelling.Spelling
import IntegerC.Proofs.Tree
import IntegerC.Scope
import Mathlib.Data.List.Nodup

set_option autoImplicit false

/-! # Resolving the names of two spellings

The names of two respelled programs are resolved in both or in neither, and the results are alike:
a name with linkage corresponds to itself, and a made name to the one made in the same step.
The scopes of the two runs are the two sides of one list of twins.
-/

namespace IntegerC

variable {p : Span → Prop}

/-! ## Pairs of made names -/

/-- The pairs of names that were made in the same step. -/
abbrev Pairs := List (String × String)

namespace Pairs

/-- The names correspond: they are one word of the text, or they were made in the same step. -/
def Spelt (D : Pairs) (x y : String) : Prop := (x = y ∧ Plain x) ∨ (x, y) ∈ D

theorem Spelt.mono {D D' : Pairs} (h : D ⊆ D') (x y : String) (hx : D.Spelt x y) : D'.Spelt x y :=
  hx.imp id fun hm => h hm

/-- On each side the names are made, with the numbers below `n`, no two of them the same. -/
structure Given (D : Pairs) (n : Nat) : Prop where
  left : Numbered (fun _ => True) 0 n (D.map Prod.fst)
  right : Numbered (fun _ => True) 0 n (D.map Prod.snd)

namespace Given

variable {D : Pairs} {n : Nat}

theorem nil : Given [] 0 := ⟨.nil (Nat.le_refl 0), .nil (Nat.le_refl 0)⟩

/-- One more pair, with the next number on both sides, keeps given pairs apart. -/
theorem snoc (h : D.Given n) (x y : String) :
    Given (D ++ [(numbered x n, numbered y n)]) (n + 1) where
  left := by
    rw [List.map_append]
    exact h.left.append (.single x trivial n)
  right := by
    rw [List.map_append]
    exact h.right.append (.single y trivial n)

/-- Made names that are paired have different partners, and a name that is not made is its own
partner. -/
theorem biUnique (h : D.Given n) : Relator.BiUnique D.Spelt := by
  -- a made name is no word of a text, so the two ways to correspond do not mix
  have hl : ∀ {x y}, (x, y) ∈ D → ¬ Plain x := fun hm => h.left.not_plain _ (List.mem_map_of_mem hm)
  have hr : ∀ {x y}, (x, y) ∈ D → ¬ Plain y := fun hm =>
    h.right.not_plain _ (List.mem_map_of_mem hm)
  constructor
  · rintro x x' y (⟨rfl, hx⟩ | hx) (⟨rfl, hx'⟩ | hx')
    · rfl
    · exact absurd hx (hr hx')
    · exact absurd hx' (hr hx)
    · exact congrArg Prod.fst (List.inj_on_of_nodup_map h.right.nodup hx hx' rfl)
  · rintro x y y' (⟨rfl, hx⟩ | hx) (⟨rfl, hx'⟩ | hx')
    · rfl
    · exact absurd hx (hl hx')
    · exact absurd hx' (hl hx)
    · exact congrArg Prod.snd (List.inj_on_of_nodup_map h.left.nodup hx hx' rfl)

end Given

end Pairs

/-! ## Twins -/

/-- The bindings of one declaration in two runs. -/
structure Twin where
  left : String × Binding
  right : String × Binding

/-- The scopes of two runs, the innermost first. -/
abbrev Twins := List (List Twin)

namespace Twins

/-- The scopes of the first run. -/
def left (T : Twins) : Scope := T.map (·.map Twin.left)

/-- The scopes of the second run. -/
def right (T : Twins) : Scope := T.map (·.map Twin.right)

def spellings (T : Twins) : Spellings := T.map (·.map fun t => (t.left.1, t.right.1))

def declare (T : Twins) (t : Twin) : Twins :=
  match T with
  | [] => [[t]]
  | frame :: outer => (t :: frame) :: outer

@[simp] theorem left_declare (T : Twins) (t : Twin) :
    (T.declare t).left = T.left.bind t.left.1 t.left.2 := by
  cases T <;> rfl

@[simp] theorem right_declare (T : Twins) (t : Twin) :
    (T.declare t).right = T.right.bind t.right.1 t.right.2 := by
  cases T <;> rfl

@[simp] theorem spellings_declare (T : Twins) (t : Twin) :
    (T.declare t).spellings = T.spellings.declare t.left.1 t.right.1 := by
  cases T <;> rfl

@[simp] theorem tail_declare (T : Twins) (t : Twin) : (T.declare t).tail = T.tail := by
  cases T <;> rfl

/-- The twins of one declaration have corresponding names, and both have linkage or neither. -/
def Bound (D : Pairs) (T : Twins) : Prop :=
  ∀ frame ∈ T, ∀ t ∈ frame, t.left.2.linkage = t.right.2.linkage ∧
    D.Spelt t.left.2.name t.right.2.name

theorem Bound.mono {D D' : Pairs} {T : Twins} (hD : D ⊆ D') (h : T.Bound D) : T.Bound D' :=
  fun frame hf t ht => ⟨(h frame hf t ht).1, .mono hD _ _ (h frame hf t ht).2⟩

theorem Bound.enter {D : Pairs} {T : Twins} (h : T.Bound D) : Bound D ([] :: T) :=
  List.forall_mem_cons.2 ⟨by simp, h⟩

theorem Bound.tail {D : Pairs} {T : Twins} (h : T.Bound D) : Bound D T.tail :=
  fun frame hf => h frame (List.mem_of_mem_tail hf)

/-- A pair of declarations that share linkage and spelling keeps corresponding scopes bound. -/
theorem Bound.declare {D : Pairs} {T : Twins} {t : Twin} (h : T.Bound D)
    (ht : t.left.2.linkage = t.right.2.linkage ∧ D.Spelt t.left.2.name t.right.2.name) :
    (T.declare t).Bound D := by
  cases T with
  | nil => simpa [Bound, Twins.declare] using ht
  | cons frame outer =>
      obtain ⟨hframe, houter⟩ := List.forall_mem_cons.1 h
      exact List.forall_mem_cons.2 ⟨List.forall_mem_cons.2 ⟨ht, hframe⟩, houter⟩

/-- Two names are bound to twins, or neither is bound. -/
def BoundAlike (T : Twins) (b b' : Option Binding) : Prop :=
  (b = none ∧ b' = none) ∨
    ∃ frame ∈ T, ∃ t ∈ frame, b = some t.left.2 ∧ b' = some t.right.2

/-- If the first twin that has one of two names has both, then the names are bound to it. -/
theorem lookup_frame {x y : String} {l : List Twin}
    (h : ∀ t ∈ l.find? (fun t => t.left.1 = x || t.right.1 = y), t.left.1 = x ∧ t.right.1 = y) :
    ((l.map Twin.left).lookup x = none ∧ (l.map Twin.right).lookup y = none) ∨
      ∃ t ∈ l, (l.map Twin.left).lookup x = some t.left.2 ∧
        (l.map Twin.right).lookup y = some t.right.2 := by
  -- up to the first twin that has either name
  induction l with
  | nil => exact .inl ⟨rfl, rfl⟩
  | cons t l ih =>
      rw [List.find?_cons] at h
      rw [List.map_cons, List.map_cons, List.lookup_cons, List.lookup_cons]
      by_cases hx : t.left.1 = x
      · obtain ⟨-, hy⟩ := h t (by simp [hx])
        exact .inr ⟨t, List.mem_cons_self, by simp [hx], by simp [hy]⟩
      · by_cases hy : t.right.1 = y
        · exact absurd (h t (by simp [hy])).1 hx
        · have hx' : (x == t.left.1) = false := by simpa using Ne.symm hx
          have hy' : (y == t.right.1) = false := by simpa using Ne.symm hy
          rw [hx', hy']
          simp only [hx, hy, decide_false, Bool.or_self] at h
          rcases ih h with hnone | ⟨t', ht', hsome⟩
          · exact .inl hnone
          · exact .inr ⟨t', List.mem_cons_of_mem t ht', hsome⟩

theorem find?_eq_lookup_flatten (s : Scope) (x : String) : s.find? x = s.flatten.lookup x := by
  induction s with
  | nil => rfl
  | cons frame s ih =>
      rw [Scope.find?] at ih ⊢
      rw [List.findSome?_cons, List.flatten_cons, List.lookup_append, ih]
      cases frame.lookup x <;> rfl

/-- Names that stand for the same declaration are bound to twins. -/
theorem find?_of_same {T : Twins} {x y : String} (h : T.spellings.same x y = true) :
    T.BoundAlike (T.left.find? x) (T.right.find? y) := by
  have hfirst : ∀ t ∈ T.flatten.find? (fun t => t.left.1 = x || t.right.1 = y),
      t.left.1 = x ∧ t.right.1 = y := by
    intro t ht
    rw [Spellings.same, spellings, ← List.map_flatten, List.find?_map] at h
    rw [Option.mem_def] at ht
    simpa [Function.comp_def, ht] using h
  rw [find?_eq_lookup_flatten, find?_eq_lookup_flatten, left, right, ← List.map_flatten,
    ← List.map_flatten]
  rcases lookup_frame hfirst with hnone | ⟨t, ht, hsome⟩
  · exact .inl hnone
  · obtain ⟨frame, hframe, ht⟩ := List.mem_flatten.1 ht
    exact .inr ⟨frame, hframe, t, ht, hsome⟩

/-- Names that fit into the innermost scope are bound there to twins. -/
theorem findInner?_of_fits {T : Twins} {x y : String} (h : T.spellings.fits x y = true) :
    T.BoundAlike (T.left.findInner? x) (T.right.findInner? y) := by
  cases T with
  | nil => exact .inl ⟨rfl, rfl⟩
  | cons frame T =>
      have hfirst : ∀ t ∈ frame.find? (fun t => t.left.1 = x || t.right.1 = y),
          t.left.1 = x ∧ t.right.1 = y := by
        intro t ht
        have hmem := List.mem_of_find?_eq_some ht
        have heither := List.find?_some ht
        simp only [Spellings.fits, spellings, List.map_cons, List.head?_cons, Option.getD_some,
          List.all_map, List.all_eq_true] at h
        have hboth := h t hmem
        simp_all
      rcases lookup_frame hfirst with hnone | ⟨t, ht, hsome⟩
      · exact .inl hnone
      · exact .inr ⟨frame, List.mem_cons_self, t, ht, hsome⟩

end Twins

/-! ## Expressions -/

/-- Names that stand for the same declaration. -/
abbrev Spellings.Same (σ : Spellings) (x y : String) : Prop := σ.same x y = true

mutual
/-- Respelled expressions are alike, where names correspond if they stand for the same
declaration. -/
theorem Expr.like_of_respells {σ : Spellings} :
    (e e' : Expr) → e.respells σ e' = true → e.Like σ.Same σ.Same e'
  | .constant n c, e', h => by
      cases e' with
      | constant n' c' =>
          simp only [respells, Bool.and_eq_true, decide_eq_true_eq] at h
          exact ⟨n', by rw [h.2], h.1.symm⟩
      | _ => simp [respells] at h
  | .var n x, e', h => by
      cases e' with
      | var n' y =>
          simp only [respells, Bool.and_eq_true, decide_eq_true_eq] at h
          exact ⟨n', y, rfl, h.1.symm, h.2⟩
      | _ => simp [respells] at h
  | .cast n t a, e', h => by
      cases e' with
      | cast n' t' a' =>
          simp only [respells, Bool.and_eq_true, decide_eq_true_eq] at h
          obtain ⟨⟨hn, rfl⟩, ha⟩ := h
          exact ⟨n', a', rfl, hn.symm, like_of_respells a a' ha⟩
      | _ => simp [respells] at h
  | .unary n op a, e', h => by
      cases e' with
      | unary n' op' a' =>
          simp only [respells, Bool.and_eq_true, decide_eq_true_eq] at h
          obtain ⟨⟨hn, rfl⟩, ha⟩ := h
          exact ⟨n', a', rfl, hn.symm, like_of_respells a a' ha⟩
      | _ => simp [respells] at h
  | .binary n op a b, e', h => by
      cases e' with
      | binary n' op' a' b' =>
          simp only [respells, Bool.and_eq_true, decide_eq_true_eq] at h
          obtain ⟨⟨⟨hn, rfl⟩, ha⟩, hb⟩ := h
          exact ⟨n', a', b', rfl, hn.symm, like_of_respells a a' ha, like_of_respells b b' hb⟩
      | _ => simp [respells] at h
  | .assignment n a b, e', h => by
      cases e' with
      | assignment n' a' b' =>
          simp only [respells, Bool.and_eq_true, decide_eq_true_eq] at h
          obtain ⟨⟨hn, ha⟩, hb⟩ := h
          exact ⟨n', a', b', rfl, hn.symm, like_of_respells a a' ha, like_of_respells b b' hb⟩
      | _ => simp [respells] at h
  | .conditional n a b c, e', h => by
      cases e' with
      | conditional n' a' b' c' =>
          simp only [respells, Bool.and_eq_true, decide_eq_true_eq] at h
          obtain ⟨⟨⟨hn, ha⟩, hb⟩, hc⟩ := h
          exact ⟨n', a', b', c', rfl, hn.symm, like_of_respells a a' ha, like_of_respells b b' hb,
            like_of_respells c c' hc⟩
      | _ => simp [respells] at h
  | .call n f es, e', h => by
      cases e' with
      | call n' g es' =>
          simp only [respells, Bool.and_eq_true, decide_eq_true_eq] at h
          obtain ⟨⟨hn, hf⟩, hes⟩ := h
          exact ⟨n', g, es', rfl, hn.symm, hf, allLike_of_respell es es' hes⟩
      | _ => simp [respells] at h
termination_by structural e => e

/-- What the decision procedure accepts for lists of expressions is alike, element by element. -/
theorem Expr.allLike_of_respell {σ : Spellings} :
    (es es' : List Expr) → allRespell σ es es' = true → AllLike σ.Same σ.Same es es'
  | [], es', h => by
      simpa [allRespell, AllLike] using h
  | e :: es, l, h => by
      cases l with
      | nil => simp [allRespell] at h
      | cons e' es' =>
          simp only [allRespell, Bool.and_eq_true] at h
          exact ⟨e', es', rfl, like_of_respells e e' h.1, allLike_of_respell es es' h.2⟩
termination_by structural es => es
end

theorem Expr.optionLike_of_respells {σ : Spellings} {o o' : Option Expr}
    (h : optionRespells σ o o' = true) : OptionLike σ.Same σ.Same o o' := by
  cases o with
  | none =>
      cases o' with
      | none => rfl
      | some e' => cases h
  | some e =>
      cases o' with
      | none => cases h
      | some e' => exact ⟨e', rfl, e.like_of_respells e' h⟩

section

variable {D : Pairs} {T : Twins}

mutual
/-- The names of alike expressions are resolved in both or in neither. -/
theorem Expr.resolve_alike (hT : T.Bound D) :
    (e : Expr) → ∀ {e' : Expr}, e.Like T.spellings.Same T.spellings.Same e' →
      Agree (e.resolve T.left) (e'.resolve T.right) (Expr.Like D.Spelt D.Spelt)
  | .constant n c, _, ⟨n', rfl, hn⟩ => by
      rw [resolve, resolve]
      exact .pure ⟨n', rfl, hn⟩
  | .var n x, _, ⟨n', y, rfl, hn, hx⟩ => by
      rw [resolve, resolve]
      -- a name is bound at the same depth in both runs, or in neither
      rcases Twins.find?_of_same hx with ⟨hx, hy⟩ | ⟨frame, hframe, t, ht, hx, hy⟩
      · rw [hx, hy]
        exact .error _ _
      · rw [hx, hy]
        exact .pure ⟨n', _, rfl, hn, (hT frame hframe t ht).2⟩
  | .cast n t a, _, ⟨n', a', rfl, hn, ha⟩ => by
      rw [resolve, resolve]
      exact (resolve_alike hT a ha).bind fun a₁ a₂ ha => .pure ⟨n', a₂, rfl, hn, ha⟩
  | .unary n op a, _, ⟨n', a', rfl, hn, ha⟩ => by
      rw [resolve, resolve]
      exact (resolve_alike hT a ha).bind fun a₁ a₂ ha => .pure ⟨n', a₂, rfl, hn, ha⟩
  | .binary n op a b, _, ⟨n', a', b', rfl, hn, ha, hb⟩ => by
      rw [resolve, resolve]
      refine (resolve_alike hT a ha).bind fun a₁ a₂ ha => ?_
      refine (resolve_alike hT b hb).bind fun b₁ b₂ hb => ?_
      exact .pure ⟨n', a₂, b₂, rfl, hn, ha, hb⟩
  | .assignment n a b, _, ⟨n', a', b', rfl, hn, ha, hb⟩ => by
      rw [resolve, resolve]
      refine (resolve_alike hT a ha).bind fun a₁ a₂ ha => ?_
      refine (resolve_alike hT b hb).bind fun b₁ b₂ hb => ?_
      -- the targets have the same form, so both are variables or neither is
      rw [ha.root_eq.1]
      split
      · exact .pure ⟨n', a₂, b₂, rfl, hn, ha, hb⟩
      · exact .error _ _
  | .conditional n a b c, _, ⟨n', a', b', c', rfl, hn, ha, hb, hc⟩ => by
      rw [resolve, resolve]
      refine (resolve_alike hT a ha).bind fun a₁ a₂ ha => ?_
      refine (resolve_alike hT b hb).bind fun b₁ b₂ hb => ?_
      refine (resolve_alike hT c hc).bind fun c₁ c₂ hc => ?_
      exact .pure ⟨n', a₂, b₂, c₂, rfl, hn, ha, hb, hc⟩
  | .call n f es, _, ⟨n', g, es', rfl, hn, hf, hes⟩ => by
      rw [resolve, resolve]
      refine (resolveAll_alike hT es hes).bind fun es₁ es₂ hes => ?_
      rcases Twins.find?_of_same hf with ⟨hx, hy⟩ | ⟨frame, hframe, t, ht, hx, hy⟩
      · rw [hx, hy]
        exact .error _ _
      · rw [hx, hy]
        exact .pure ⟨n', _, es₂, rfl, hn, (hT frame hframe t ht).2, hes⟩
termination_by structural e => e

/-- Arguments are resolved in the same scopes, one after the other. -/
theorem Expr.resolveAll_alike (hT : T.Bound D) :
    (es : List Expr) → ∀ {es' : List Expr}, AllLike T.spellings.Same T.spellings.Same es es' →
      Agree (resolveAll T.left es) (resolveAll T.right es') (AllLike D.Spelt D.Spelt)
  | [], _, rfl => by
      rw [resolveAll, resolveAll]
      exact .pure rfl
  | e :: es, _, ⟨e', es', rfl, he, hes⟩ => by
      rw [resolveAll, resolveAll]
      refine (resolve_alike hT e he).bind fun e₁ e₂ he => ?_
      refine (resolveAll_alike hT es hes).bind fun es₁ es₂ hes => ?_
      exact .pure ⟨e₂, es₂, rfl, he, hes⟩
termination_by structural es => es
end

/-! ## States -/

namespace Resolution

/-- Two runs at the same place of two respelled programs. -/
structure Alike (D : Pairs) (T : Twins) (r r' : Resolution) : Prop where
  given : r'.given = r.given
  left : r.scope = T.left
  right : r'.scope = T.right
  pairs : D.Given r.given
  bound : T.Bound D

/-- Two runs a few steps after a place with the twins `T`, where the spellings are `σ` and `like`
says how the results correspond. -/
def After (D : Pairs) (T : Twins) (σ : Spellings) (like : (String → String → Prop) → Prop)
    (r r' : Resolution) : Prop :=
  ∃ (D' : Pairs) (T' : Twins), D ⊆ D' ∧ T'.tail = T.tail ∧ T'.spellings = σ ∧ Alike D' T' r r' ∧
    like D'.Spelt

variable {D' : Pairs} {T' : Twins} {σ : Spellings} {like like' : (String → String → Prop) → Prop}
  {r r' : Resolution}

theorem Alike.after (h : Alike D T r r') (like : (String → String → Prop) → Prop)
    (hlike : like D.Spelt) : After D T T.spellings like r r' :=
  ⟨D, T, List.Subset.refl D, rfl, rfl, h, hlike⟩

theorem After.imp (h : After D T σ like r r')
    (himp : ∀ V : String → String → Prop, (∀ x y, D.Spelt x y → V x y) → like V → like' V) :
    After D T σ like' r r' := by
  obtain ⟨D', T', hD, hT, hσ, hr, hlike⟩ := h
  exact ⟨D', T', hD, hT, hσ, hr, himp _ (Pairs.Spelt.mono hD) hlike⟩

theorem After.trans (hD : D ⊆ D') (hT : T'.tail = T.tail) (h : After D' T' σ like r r') :
    After D T σ like r r' := by
  obtain ⟨D₁, T₁, hD₁, hT₁, hσ, hr, hlike⟩ := h
  exact ⟨D₁, T₁, List.Subset.trans hD hD₁, hT₁.trans hT, hσ, hr, hlike⟩

end Resolution

/-! ## Declarations -/

namespace Resolver

open Resolution (Alike After)

variable {α : Type} {r r' : Resolution}

/-- Both runs open a scope, go on alike in it, and are back in the scopes that they came from. -/
theorem inScope_alike {x x' : Resolver α} (like : α → α → (String → String → Prop) → Prop)
    (h : Alike D T r r')
    (hx : ∀ r₁ r₁', Alike D ([] :: T) r₁ r₁' → Agree (x.run r₁) (x'.run r₁')
      (fun o o' => ∃ σ, After D ([] :: T) σ (like o.1 o'.1) o.2 o'.2)) :
    Agree ((inScope x).run r) ((inScope x').run r')
      (fun o o' => After D T T.spellings (like o.1 o'.1) o.2 o'.2) := by
  rw [inScope, inScope]
  refine .run_modify ?_
  have hr : Alike D ([] :: T) { r with scope := [] :: r.scope }
      { r' with scope := [] :: r'.scope } :=
    ⟨h.given, by rw [h.left]; rfl, by rw [h.right]; rfl, h.pairs, h.bound.enter⟩
  refine (hx _ _ hr).run_bind fun a a' s s' hs => .run_modify (.run_pure ?_)
  -- the frame that was entered is dropped, and those below it are as before
  obtain ⟨σ, D', T', hD, hT, -, hs, hlike⟩ := hs
  rw [List.tail_cons] at hT
  subst hT
  refine ⟨D', T'.tail, hD, rfl, rfl, ⟨hs.given, ?_, ?_, hs.pairs, hs.bound.tail⟩, hlike⟩
  · show s.scope.tail = _
    rw [hs.left, Twins.left, ← List.map_tail]
    rfl
  · show s'.scope.tail = _
    rw [hs.right, Twins.right, ← List.map_tail]
    rfl

theorem expr_alike {e e' : Expr} (he : e.Like T.spellings.Same T.spellings.Same e')
    (h : Alike D T r r') :
    Agree ((expr e).run r) ((expr e').run r')
      (fun o o' => Alike D T o.2 o'.2 ∧ o.1.Like D.Spelt D.Spelt o'.1) := by
  have hresolve := Expr.resolve_alike h.bound e he
  rw [← h.left, ← h.right] at hresolve
  exact .run_lift_last (hresolve.imp fun _ _ he => ⟨h, he⟩)

/-- Corresponding expressions are resolved to corresponding ones or fail together. -/
theorem optionalExpr_alike {e e' : Option Expr}
    (he : Expr.OptionLike T.spellings.Same T.spellings.Same e e') (h : Alike D T r r') :
    Agree ((optionalExpr e).run r) ((optionalExpr e').run r')
      (fun o o' => Alike D T o.2 o'.2 ∧ Expr.OptionLike D.Spelt D.Spelt o.1 o'.1) := by
  cases e with
  | none =>
      obtain rfl : e' = none := he
      exact .run_pure ⟨h, rfl⟩
  | some e =>
      obtain ⟨e₁, rfl, he⟩ := he
      exact .run_map ((expr_alike he h).imp fun o o' ho => ⟨ho.1, o'.1, rfl, ho.2⟩)

/-- A name with linkage corresponds to itself. -/
theorem declareLinked_alike {x : String} (hx : Plain x) (h : Alike D T r r') :
    Agree ((declareLinked x).run r) ((declareLinked x).run r')
      (fun o o' => After D T (T.spellings.declare x x) (fun V => V x x) o.2 o'.2) := by
  refine .pure ⟨D, T.declare ⟨(x, ⟨x, true⟩), (x, ⟨x, true⟩)⟩, List.Subset.refl D, by simp,
    by simp, ⟨h.given, ?_, ?_, h.pairs, h.bound.declare ⟨rfl, .inl ⟨rfl, hx⟩⟩⟩, .inl ⟨rfl, hx⟩⟩
  · rw [Twins.left_declare, ← h.left]
  · rw [Twins.right_declare, ← h.right]

/-- Names without linkage get made names, which correspond from then on. -/
theorem declareUnique_alike (x y : String) (h : Alike D T r r') :
    Agree ((declareUnique x).run r) ((declareUnique y).run r')
      (fun o o' => (x = y → o.1 = o'.1) ∧
        After D T (T.spellings.declare x y) (fun V => V o.1 o'.1) o.2 o'.2) := by
  let t : Twin := ⟨(x, ⟨numbered x r.given, false⟩), (y, ⟨numbered y r'.given, false⟩)⟩
  have hmem : (numbered x r.given, numbered y r'.given) ∈
      D ++ [(numbered x r.given, numbered y r'.given)] := by simp
  have hD : D ⊆ D ++ [(numbered x r.given, numbered y r'.given)] := List.subset_append_left _ _
  have hbound : (T.declare t).Bound (D ++ [(numbered x r.given, numbered y r'.given)]) :=
    (h.bound.mono hD).declare ⟨rfl, .inr hmem⟩
  -- both runs have made as many names, so the two new names get one number
  have hpairs : Pairs.Given (D ++ [(numbered x r.given, numbered y r'.given)]) (r.given + 1) := by
    rw [h.given]
    exact h.pairs.snoc x y
  refine .pure ⟨fun e => by rw [e, h.given], _, T.declare t, hD, by simp, by simp [t],
    ⟨?_, ?_, ?_, hpairs, hbound⟩, .inr hmem⟩
  · exact congrArg (· + 1) h.given
  · rw [Twins.left_declare, ← h.left]
    rfl
  · rw [Twins.right_declare, ← h.right]
    rfl

/-- Both names get the next number, or have linkage and are the same name. The initializer is
resolved behind the declaration in both programs. -/
theorem localVar_alike {d d' : VarDecl} (hd : d.respells T.spellings d' = true)
    (hr : (Part.var d).Read p) (h : Alike D T r r') :
    Agree ((localVar d).run r) ((localVar d').run r')
      (fun o o' => After D T (T.spellings.declare d.name d'.name) (fun V => o.1.Like V V o'.1)
        o.2 o'.2) := by
  simp only [VarDecl.respells, Bool.and_eq_true, decide_eq_true_eq, Bool.or_eq_true] at hd
  obtain ⟨⟨⟨⟨htype, hstorage⟩, hname⟩, hfits⟩, hinit⟩ := hd
  have hinit := Expr.optionLike_of_respells hinit
  have hbound := Twins.findInner?_of_fits hfits
  rw [← h.left, ← h.right] at hbound
  rw [localVar, localVar]
  refine .run_get ?_
  dsimp only
  refine .run_ite ?_ (fun _ => .run_throw) fun _ => .run_ite (by rw [hstorage]) (fun hs => ?_)
    fun hs => ?_
  · rcases hbound with ⟨hx, hy⟩ | ⟨frame, hframe, t, ht, hx, hy⟩
    · rw [hx, hy]
    · rw [hx, hy, hstorage]
      dsimp only
      rw [(h.bound frame hframe t ht).1]
  · -- an `extern` variable keeps its name
    obtain hnone | hname := hname
    · rw [hnone] at hs
      cases hs
    · rw [← hname]
      refine (declareLinked_alike ((Part.read_var.1 hr).2 hs) h).run_bind
        fun _ _ r₁ r₁' h₁ => .run_pure (h₁.imp fun V _ hV => ?_)
      refine ⟨htype.symm, hstorage.symm, hname ▸ hV, fun _ => hname.symm, fun hne => absurd hs hne,
        hinit.isSome_eq⟩
  · -- any other one gets a made name, before its initializer is looked at
    refine (declareUnique_alike d.name d'.name h).run_bind fun x y r₁ r₁' ⟨heq, h₁⟩ => ?_
    obtain ⟨D₁, T₁, hD₁, hT₁, hσ₁, h₁, hxy⟩ := h₁
    dsimp only at heq h₁ hxy
    rw [← hσ₁] at hinit
    refine (optionalExpr_alike hinit h₁).run_bind fun init init' r₂ r₂' ⟨h₂, hi⟩ => .run_pure ?_
    refine ⟨D₁, T₁, hD₁, hT₁, hσ₁, h₂, htype.symm, hstorage.symm, hxy, fun hne => ?_, fun _ => hi,
      hi.isSome_eq⟩
    exact (heq (hname.resolve_left hne)).symm

theorem param_alike {q q' : Param} (ht : q'.type = q.type)
    (hfits : T.spellings.fits q.name q'.name = true) (h : Alike D T r r') :
    Agree ((param q).run r) ((param q').run r')
      (fun o o' => After D T (T.spellings.declare q.name q'.name) (fun V => o.1.Like V o'.1)
        o.2 o'.2) := by
  have hbound := Twins.findInner?_of_fits hfits
  rw [← h.left, ← h.right] at hbound
  rw [param, param]
  refine .run_get (.run_ite ?_ (fun _ => .run_throw) fun _ => ?_)
  · rcases hbound with ⟨hx, hy⟩ | ⟨frame, hframe, t, ht, hx, hy⟩ <;> rw [hx, hy]
    rfl
  · refine (declareUnique_alike q.name q'.name h).run_bind fun x y r₁ r₁' ⟨_, h₁⟩ => .run_pure ?_
    exact h₁.imp fun V _ hV => ⟨ht, hV⟩

/-- Parameters that are respelled one after the other stay in one scope. -/
theorem params_alike (ps : List Param) :
    ∀ {ps' : List Param} {D : Pairs} {T : Twins} {r r' : Resolution},
      Param.allRespell T.spellings ps ps' = true → Alike D T r r' →
      Agree ((params ps).run r) ((params ps').run r')
        (fun o o' => After D T (Param.spellings T.spellings ps ps')
          (fun V => List.Forall₂ (Param.Like V) o.1 o'.1) o.2 o'.2) := by
  induction ps with
  | nil =>
      intro ps' D T r r' hps h
      cases ps' with
      | nil => exact .run_pure (h.after _ .nil)
      | cons q' ps' => cases hps
  | cons q ps ih =>
      intro ps' D T r r' hps h
      cases ps' with
      | nil => cases hps
      | cons q' ps' =>
          simp only [Param.allRespell, Bool.and_eq_true, decide_eq_true_eq] at hps
          obtain ⟨⟨ht, hfits⟩, hps⟩ := hps
          rw [params, params]
          refine (param_alike ht.symm hfits h).run_bind fun q₁ q₂ r₁ r₁' h₁ => ?_
          obtain ⟨D₁, T₁, hD₁, hT₁, hσ₁, h₁, hq⟩ := h₁
          rw [← hσ₁] at hps
          refine (ih hps h₁).run_bind fun ps₁ ps₂ r₂ r₂' h₂ => .run_pure ?_
          rw [hσ₁] at h₂
          exact (h₂.imp fun V hV hps => .cons (hq.mono hV) hps).trans hD₁ hT₁

theorem functionName_alike {f f' : FunHeader} (hname : f'.name = f.name) (hplain : Plain f.name)
    (hfits : T.spellings.fits f.name f.name = true) (h : Alike D T r r') :
    Agree ((functionName f).run r) ((functionName f').run r')
      (fun o o' => After D T (T.spellings.declare f.name f.name) (fun V => V f.name f.name)
        o.2 o'.2) := by
  have hbound := Twins.findInner?_of_fits hfits
  rw [← h.left, ← h.right] at hbound
  rw [functionName, functionName, hname]
  refine .run_get ?_
  dsimp only
  refine .run_ite ?_ (fun _ => .run_throw) fun _ => declareLinked_alike hplain h
  rcases hbound with ⟨hx, hy⟩ | ⟨frame, hframe, t, ht, hx, hy⟩
  · rw [hx, hy]
  · rw [hx, hy]
    dsimp only
    rw [(h.bound frame hframe t ht).1]

theorem prototype_alike {f f' : FunHeader} (hf : f.respells T.spellings f' = true)
    (hplain : Plain f.name) (h : Alike D T r r') :
    Agree ((prototype f).run r) ((prototype f').run r')
      (fun o o' => After D T (T.spellings.declare f.name f'.name) (fun V => o.1.Like V o'.1)
        o.2 o'.2) := by
  simp only [FunHeader.respells, Bool.and_eq_true, decide_eq_true_eq] at hf
  obtain ⟨⟨⟨⟨hname, hresult⟩, hstorage⟩, hfits⟩, hps⟩ := hf
  rw [← hname] at hfits hps ⊢
  rw [prototype, prototype]
  refine (functionName_alike hname.symm hplain hfits h).run_bind fun _ _ r₁ r₁' h₁ => ?_
  obtain ⟨D₁, T₁, hD₁, hT₁, hσ₁, h₁, hknown⟩ := h₁
  rw [← hσ₁] at hps ⊢
  refine (inScope_alike (fun g g' V => g.Like V g') h₁ fun r₂ r₂' h₂ => ?_).imp
    fun o o' ho => ho.trans hD₁ hT₁
  refine (params_alike f.params (T := [] :: T₁) hps h₂).run_bind
    fun ps ps' r₃ r₃' h₃ => .run_pure ?_
  exact ⟨_, h₃.imp fun V hV hps =>
    ⟨hname.symm, hV _ _ hknown, hresult.symm, hstorage.symm, Param.types_eq hps⟩⟩

/-! ## Statements -/

/-- A declaration at the head of a loop is in scope in the conditions and the body. -/
theorem forInit_alike {i i' : ForInit} (hi : i.respells T.spellings i' = true)
    (hr : Part.AllRead p i.parts) (h : Alike D T r r') :
    Agree ((forInit i).run r) ((forInit i').run r')
      (fun o o' => After D T (i.spellings T.spellings i') (fun V => o.1.Like V V o'.1)
        o.2 o'.2) := by
  cases i with
  | nothing =>
      cases i' with
      | nothing => exact .run_pure (h.after _ rfl)
      | _ => cases hi
  | decl d =>
      cases i' with
      | decl d' =>
          have hd : d.respells T.spellings d' = true := hi
          rw [forInit, forInit]
          refine .run_ite ?_ (fun _ => .run_throw) fun _ => ?_
          · simp only [VarDecl.respells, Bool.and_eq_true, decide_eq_true_eq] at hd
            rw [hd.1.1.1.2]
          · refine (localVar_alike hd (hr _ List.mem_cons_self) h).run_bind
              fun d₁ d₂ r₁ r₁' h₁ => .run_pure ?_
            exact h₁.imp fun V _ hd => ⟨d₂, rfl, hd⟩
      | _ => cases hi
  | expr e =>
      cases i' with
      | expr e' =>
          refine (expr_alike (e.like_of_respells e' hi) h).run_bind
            fun e₁ e₂ r₁ r₁' ⟨h₁, he⟩ => .run_pure ?_
          exact h₁.after (fun V => ForInit.Like V V (.expr e₁) (.expr e₂)) ⟨e₂, rfl, he⟩
      | _ => cases hi

/-- The names of a statement and of its respellings are resolved in both runs or in neither. -/
def StmtAlike (p : Span → Prop) (s : Stmt) : Prop :=
  ∀ ⦃s' : Stmt⦄ ⦃D : Pairs⦄ ⦃T : Twins⦄ ⦃r r' : Resolution⦄,
    s.respells T.spellings s' = true → Part.AllRead p s.parts → Alike D T r r' →
    Agree ((stmt s).run r) ((stmt s').run r')
      (fun o o' => After D T T.spellings (fun V => o.1.Like V V o'.1) o.2 o'.2)

theorem ifElse_alike {q : Span} {e : Expr} {yes no : Stmt} (hyes : StmtAlike p yes)
    (hno : StmtAlike p no) : StmtAlike p (.ifElse q e yes no) := by
  intro s' D T r r' hs hr h
  cases s' with
  | ifElse q' e' yes' no' =>
      simp only [Stmt.respells, Bool.and_eq_true] at hs
      obtain ⟨⟨he, hy⟩, hn⟩ := hs
      simp only [Stmt.parts, Part.allRead_cons, Part.allRead_append] at hr
      rw [stmt, stmt]
      refine (expr_alike (e.like_of_respells e' he) h).run_bind fun e₁ e₂ r₁ r₁' h₁ => ?_
      obtain ⟨h₁, he⟩ := h₁
      refine (hyes hy hr.2.2.1 h₁).run_bind fun y₁ y₂ r₂ r₂' h₂ => ?_
      obtain ⟨D₂, T₂, hD₂, hT₂, hσ₂, h₂, hy⟩ := h₂
      -- the first arm has made names, so the second one begins with more pairs
      rw [← hσ₂] at hn
      refine (hno hn hr.2.2.2 h₂).run_bind fun n₁ n₂ r₃ r₃' h₃ => .run_pure ?_
      rw [hσ₂] at h₃
      refine After.trans hD₂ hT₂ (h₃.imp fun V hV hn => ?_)
      have he := he.mono (Pairs.Spelt.mono hD₂) (Pairs.Spelt.mono hD₂)
      exact ⟨q', e₂, y₂, n₂, rfl, he.mono hV hV, hy.mono hV hV, hn⟩
  | _ => simp [Stmt.respells] at hs

theorem doLoop_alike {q : Span} {l : Option String} {body : Stmt} {e : Expr}
    (hbody : StmtAlike p body) : StmtAlike p (.doLoop q l body e) := by
  intro s' D T r r' hs hr h
  cases s' with
  | doLoop q' l' body' e' =>
      simp only [Stmt.respells, Bool.and_eq_true, decide_eq_true_eq] at hs
      obtain ⟨⟨rfl, hb⟩, he⟩ := hs
      simp only [Stmt.parts, Part.allRead_cons, Part.allRead_append] at hr
      rw [stmt, stmt]
      refine (hbody hb hr.2.2.1 h).run_bind fun b₁ b₂ r₁ r₁' h₁ => ?_
      obtain ⟨D₁, T₁, hD₁, hT₁, hσ₁, h₁, hb⟩ := h₁
      rw [← hσ₁] at he ⊢
      refine (expr_alike (e.like_of_respells e' he) h₁).run_bind
        fun e₁ e₂ r₂ r₂' h₂ => .run_pure (After.trans hD₁ hT₁ ?_)
      obtain ⟨h₂, he⟩ := h₂
      exact h₂.after (fun V => Stmt.Like V V (.doLoop q l b₁ e₁) _)
        ⟨q', b₂, e₂, rfl, hb, he⟩
  | _ => simp [Stmt.respells] at hs

/-- The head of a loop opens a scope around the body, which opens another if it is a block. -/
theorem forLoop_alike {q : Span} {l : Option String} {init : ForInit} {e post : Option Expr}
    {body : Stmt} (hbody : StmtAlike p body) :
    StmtAlike p (.forLoop q l init e post body) := by
  intro s' D T r r' hs hr h
  cases s' with
  | forLoop q' l' init' e' post' body' =>
      simp only [Stmt.respells, Bool.and_eq_true, decide_eq_true_eq] at hs
      obtain ⟨⟨⟨⟨rfl, hi⟩, he⟩, hp⟩, hb⟩ := hs
      simp only [Stmt.parts, Part.allRead_cons, Part.allRead_append] at hr
      obtain ⟨-, -, hri, -, -, hrb⟩ := hr
      rw [stmt, stmt]
      refine inScope_alike (fun s₁ s₂ V => Stmt.Like V V s₁ s₂) h fun r₀ r₀' h₀ => ?_
      refine (forInit_alike (T := [] :: T) hi hri h₀).run_bind fun i₁ i₂ r₁ r₁' h₁ => ?_
      obtain ⟨D₁, T₁, hD₁, hT₁, hσ₁, h₁, hi⟩ := h₁
      -- the rest of the statement stands behind the declaration of its header
      have hσ : init.spellings ([] :: T.spellings) init' = T₁.spellings := hσ₁.symm
      rw [hσ] at he hp hb
      refine (optionalExpr_alike (Expr.optionLike_of_respells he) h₁).run_bind
        fun e₁ e₂ r₂ r₂' h₂ => ?_
      obtain ⟨h₂, he⟩ := h₂
      refine (optionalExpr_alike (Expr.optionLike_of_respells hp) h₂).run_bind
        fun p₁ p₂ r₃ r₃' h₃ => ?_
      obtain ⟨h₃, hp⟩ := h₃
      refine (hbody hb hrb h₃).run_bind fun b₁ b₂ r₄ r₄' h₄ => .run_pure ?_
      refine ⟨_, After.trans hD₁ hT₁ (h₄.imp fun V hV hb => ?_)⟩
      exact ⟨q', i₂, e₂, p₂, b₂, rfl, hi.mono hV hV, he.mono hV hV, hp.mono hV hV, hb⟩
  | _ => simp [Stmt.respells] at hs

mutual
/-- Which spellings are in use behind a statement is said by what stands before it, so the cases of
compound statements only pass them on. -/
theorem stmt_alike : (s : Stmt) → StmtAlike p s
  | .ret q e, s', D, T, r, r', hs, _, h => by
      cases s' with
      | ret q' e' =>
          simp only [Stmt.respells] at hs
          rw [stmt, stmt]
          refine (expr_alike (e.like_of_respells e' hs) h).run_bind
            fun e₁ e₂ r₁ r₁' ⟨h₁, he⟩ => .run_pure ?_
          exact h₁.after (fun V => Stmt.Like V V (.ret q e₁) (.ret q' e₂)) ⟨q', e₂, rfl, he⟩
      | _ => simp [Stmt.respells] at hs
  | .expr q e, s', D, T, r, r', hs, _, h => by
      cases s' with
      | expr q' e' =>
          simp only [Stmt.respells] at hs
          rw [stmt, stmt]
          refine (expr_alike (e.like_of_respells e' hs) h).run_bind
            fun e₁ e₂ r₁ r₁' ⟨h₁, he⟩ => .run_pure ?_
          exact h₁.after (fun V => Stmt.Like V V (.expr q e₁) (.expr q' e₂))
            ⟨q', e₂, rfl, he⟩
      | _ => simp [Stmt.respells] at hs
  | .ifThen q e yes, s', D, T, r, r', hs, hr, h => by
      cases s' with
      | ifThen q' e' yes' =>
          simp only [Stmt.respells, Bool.and_eq_true] at hs
          simp only [Stmt.parts, Part.allRead_cons] at hr
          rw [stmt, stmt]
          refine (expr_alike (e.like_of_respells e' hs.1) h).run_bind
            fun e₁ e₂ r₁ r₁' ⟨h₁, he⟩ => ?_
          refine (stmt_alike yes hs.2 hr.2.2 h₁).run_bind fun y₁ y₂ r₂ r₂' h₂ => .run_pure ?_
          exact h₂.imp fun V hV hy => ⟨q', e₂, y₂, rfl, he.mono hV hV, hy⟩
      | _ => simp [Stmt.respells] at hs
  | .ifElse q e yes no, _, _, _, _, _, hs, hr, h =>
      ifElse_alike (stmt_alike yes) (stmt_alike no) hs hr h
  | .block q is, s', D, T, r, r', hs, hr, h => by
      cases s' with
      | block q' is' =>
          simp only [Stmt.respells] at hs
          simp only [Stmt.parts, Part.allRead_cons] at hr
          rw [stmt, stmt]
          refine Agree.run_bind (inScope_alike (fun is₁ is₂ V => Item.AllLike V V is₁ is₂) h
            fun r₁ r₁' h₁ => items_alike is (T := [] :: T) hs hr.2 h₁)
            fun is₁ is₂ r₁ r₁' h₁ => .run_pure ?_
          exact h₁.imp fun V _ his => ⟨q', is₂, rfl, his⟩
      | _ => simp [Stmt.respells] at hs
  | .breakLoop q l, s', D, T, r, r', hs, _, h => by
      cases s' with
      | breakLoop q' l' =>
          simp only [Stmt.respells, decide_eq_true_eq] at hs
          subst hs
          exact .run_pure (h.after (fun V => Stmt.Like V V (.breakLoop q l) _) ⟨q', rfl⟩)
      | _ => simp [Stmt.respells] at hs
  | .continueLoop q l, s', D, T, r, r', hs, _, h => by
      cases s' with
      | continueLoop q' l' =>
          simp only [Stmt.respells, decide_eq_true_eq] at hs
          subst hs
          exact .run_pure (h.after (fun V => Stmt.Like V V (.continueLoop q l) _) ⟨q', rfl⟩)
      | _ => simp [Stmt.respells] at hs
  | .whileLoop q l e body, s', D, T, r, r', hs, hr, h => by
      cases s' with
      | whileLoop q' l' e' body' =>
          simp only [Stmt.respells, Bool.and_eq_true, decide_eq_true_eq] at hs
          obtain ⟨⟨rfl, he⟩, hb⟩ := hs
          simp only [Stmt.parts, Part.allRead_cons] at hr
          rw [stmt, stmt]
          refine (expr_alike (e.like_of_respells e' he) h).run_bind fun e₁ e₂ r₁ r₁' ⟨h₁, he⟩ => ?_
          refine (stmt_alike body hb hr.2.2.2 h₁).run_bind fun b₁ b₂ r₂ r₂' h₂ => .run_pure ?_
          exact h₂.imp fun V hV hb => ⟨q', e₂, b₂, rfl, he.mono hV hV, hb⟩
      | _ => simp [Stmt.respells] at hs
  | .doLoop q l body e, _, _, _, _, _, hs, hr, h => doLoop_alike (stmt_alike body) hs hr h
  | .forLoop q l init e post body, _, _, _, _, _, hs, hr, h =>
      forLoop_alike (stmt_alike body) hs hr h
  | .null q, s', D, T, r, r', hs, _, h => by
      cases s' with
      | null q' => exact .run_pure (h.after (fun V => Stmt.Like V V (.null q) _) ⟨q', rfl⟩)
      | _ => simp [Stmt.respells] at hs
termination_by structural s => s

/-- An item of a block is a statement, a variable or a prototype. Only the last two change which
spellings are in use. -/
theorem item_alike :
    (i : Item) → ∀ {i' : Item} {D : Pairs} {T : Twins} {r r' : Resolution},
      i.respells T.spellings i' = true → Part.AllRead p i.parts → Alike D T r r' →
      Agree ((item i).run r) ((item i').run r')
        (fun o o' => After D T (i.spellings T.spellings i') (fun V => o.1.Like V V o'.1) o.2 o'.2)
  | .stmt s, i', D, T, r, r', hi, hr, h => by
      cases i' with
      | stmt s' =>
          simp only [Item.respells] at hi
          rw [item, item]
          refine (stmt_alike s hi hr h).run_bind fun s₁ s₂ r₁ r₁' h₁ => .run_pure ?_
          exact h₁.imp fun V _ hs => ⟨s₂, rfl, hs⟩
      | decl d' => simp [Item.respells] at hi
  | .decl (.var d), i', D, T, r, r', hi, hr, h => by
      cases i' with
      | stmt s' => simp [Item.respells] at hi
      | decl d' =>
          cases d' with
          | var d' =>
              simp only [Item.respells] at hi
              rw [item, item]
              refine (localVar_alike hi (hr _ List.mem_cons_self) h).run_bind
                fun d₁ d₂ r₁ r₁' h₁ => .run_pure ?_
              exact h₁.imp fun V _ hd => ⟨d₂, rfl, hd⟩
          | _ => simp [Item.respells] at hi
  | .decl (.prototype f), i', D, T, r, r', hi, hr, h => by
      cases i' with
      | stmt s' => simp [Item.respells] at hi
      | decl d' =>
          cases d' with
          | prototype f' =>
              simp only [Item.respells] at hi
              have hplain := (Part.read_prototype.1 (hr _ List.mem_cons_self)).2
              have hstorage : f'.storage = f.storage := by
                simp only [FunHeader.respells, Bool.and_eq_true, decide_eq_true_eq] at hi
                exact hi.1.1.2.symm
              rw [item, item]
              -- prototypes in a block may not be static, in either program
              refine .run_ite (by rw [hstorage]) (fun _ => .run_throw) fun _ => ?_
              refine (prototype_alike hi hplain h).run_bind fun f₁ f₂ r₁ r₁' h₁ => .run_pure ?_
              exact h₁.imp fun V _ hf => ⟨f₂, rfl, hf⟩
          | _ => simp [Item.respells] at hi
  | .decl (.function f q body), i', D, T, r, r', hi, _, _ => by
      cases i' with
      | stmt s' => simp [Item.respells] at hi
      | decl d' =>
          cases d' with
          | function f' q' body' =>
              rw [item, item]
              exact .run_throw
          | _ => simp [Item.respells] at hi
termination_by structural i => i

theorem items_alike :
    (is : List Item) → ∀ {is' : List Item} {D : Pairs} {T : Twins} {r r' : Resolution},
      Item.allRespell T.spellings is is' = true → Part.AllRead p (Item.allParts is) →
      Alike D T r r' →
      Agree ((items is).run r) ((items is').run r')
        (fun o o' => ∃ σ, After D T σ (fun V => Item.AllLike V V o.1 o'.1) o.2 o'.2)
  | [], is', D, T, r, r', his, _, h => by
      rw [Item.allRespell, List.isEmpty_iff] at his
      subst his
      exact .run_pure ⟨_, h.after (fun V => Item.AllLike V V [] []) rfl⟩
  | i :: is, l, D, T, r, r', his, hr, h => by
      cases l with
      | nil => simp [Item.allRespell] at his
      | cons i' is' =>
          simp only [Item.allRespell, Bool.and_eq_true] at his
          rw [Item.allParts, Part.allRead_append] at hr
          rw [items, items]
          refine (item_alike i his.1 hr.1 h).run_bind fun i₁ i₂ r₁ r₁' h₁ => ?_
          obtain ⟨D₁, T₁, hD₁, hT₁, hσ₁, h₁, hi⟩ := h₁
          have his := his.2
          rw [← hσ₁] at his
          refine (items_alike is his hr.2 h₁).run_bind fun is₁ is₂ r₂ r₂' h₂ => .run_pure ?_
          obtain ⟨σ, h₂⟩ := h₂
          refine ⟨σ, After.trans hD₁ hT₁ (h₂.imp fun V hV his => ?_)⟩
          exact ⟨i₂, is₂, rfl, hi.mono hV hV, his⟩
termination_by structural is => is
end

/-! ## Programs -/

/-- A function is resolved in the scope that its parameters open, with its name declared around
it. -/
theorem decl_alike {d d' : Decl} (hd : d.respells T.spellings d' = true)
    (hr : Part.AllRead p d.parts) (h : Alike D T r r') :
    Agree ((decl d).run r) ((decl d').run r')
      (fun o o' => After D T (T.spellings.declare d.name d'.name) (fun V => o.1.Like V V o'.1)
        o.2 o'.2) := by
  cases d with
  | var d =>
      cases d' with
      | var d' =>
          simp only [Decl.respells, Bool.and_eq_true, decide_eq_true_eq] at hd
          obtain ⟨⟨⟨hname, htype⟩, hstorage⟩, hinit⟩ := hd
          have hplain := (Part.read_fileVar.1 (hr _ List.mem_cons_self)).2
          have hshape : Expr.OptionLike (fun _ _ => True) (fun _ _ => True) d.init d'.init :=
            (Expr.optionLike_of_respells hinit).mono (fun _ _ _ => trivial) fun _ _ _ => trivial
          rw [decl, decl, Decl.name, Decl.name, ← hname]
          refine (declareLinked_alike hplain h).run_bind fun _ _ r₁ r₁' h₁ => .run_pure ?_
          exact h₁.imp fun V _ hV =>
            ⟨d', rfl, htype.symm, hstorage.symm, hname.symm, hV, hshape⟩
      | _ => simp [Decl.respells] at hd
  | prototype f =>
      cases d' with
      | prototype f' =>
          have hplain := (Part.read_prototype.1 (hr _ List.mem_cons_self)).2
          rw [decl, decl]
          refine (prototype_alike hd hplain h).run_bind fun f₁ f₂ r₁ r₁' h₁ => .run_pure ?_
          exact h₁.imp fun V _ hf => ⟨f₂, rfl, hf⟩
      | _ => simp [Decl.respells] at hd
  | function f q body =>
      cases d' with
      | function f' q' body' =>
          simp only [Decl.respells, FunHeader.respells, FunHeader.spellings, Bool.and_eq_true,
            decide_eq_true_eq] at hd
          obtain ⟨⟨⟨⟨⟨hname, hresult⟩, hstorage⟩, hfits⟩, hps⟩, hb⟩ := hd
          simp only [Decl.parts, Part.allRead_cons] at hr
          have hplain := (Part.read_prototype.1 (Part.read_function.1 hr.1)).2
          rw [← hname] at hfits hps hb
          rw [decl, decl, Decl.name, Decl.name, ← hname]
          refine (functionName_alike hname.symm hplain hfits h).run_bind fun _ _ r₁ r₁' h₁ => ?_
          obtain ⟨D₁, T₁, hD₁, hT₁, hσ₁, h₁, hknown⟩ := h₁
          rw [← hσ₁] at hps hb ⊢
          -- the parameters and the body share one scope
          refine (inScope_alike (fun g g' V => Decl.Like V V g g') h₁ fun r₂ r₂' h₂ => ?_).imp
            fun o o' ho => ho.trans hD₁ hT₁
          refine (params_alike f.params (T := [] :: T₁) hps h₂).run_bind fun ps ps' r₃ r₃' h₃ => ?_
          obtain ⟨D₃, T₃, hD₃, hT₃, hσ₃, h₃, hps⟩ := h₃
          have hσ : Param.spellings ([] :: T₁.spellings) f.params f'.params = T₃.spellings :=
            hσ₃.symm
          rw [hσ] at hb
          refine (items_alike body hb hr.2.2 h₃).run_bind fun b₁ b₂ r₄ r₄' h₄ => .run_pure ?_
          obtain ⟨σ, h₄⟩ := h₄
          refine ⟨σ, After.trans hD₃ hT₃ (h₄.imp fun V hV hb => ?_)⟩
          have hhead : FunHeader.Like D₃.Spelt { f with params := ps }
              { f' with name := f.name, params := ps' } :=
            ⟨rfl, Pairs.Spelt.mono hD₃ _ _ hknown, hresult.symm, hstorage.symm,
              Param.types_eq hps⟩
          exact ⟨_, q', b₂, rfl, hhead.mono hV, hps.imp fun _ _ hp => hp.mono hV, hb⟩
      | _ => simp [Decl.respells] at hd

/-- Declarations of the file have linkage, so the spellings of the file stay pairs of equal
names. -/
theorem decls_alike (ds : List Decl) :
    ∀ {ds' : List Decl} {D : Pairs} {T : Twins} {r r' : Resolution},
      Decl.allRespell T.spellings ds ds' = true → Part.AllRead p (ds.flatMap Decl.parts) →
      Alike D T r r' →
      Agree ((decls ds).run r) ((decls ds').run r')
        (fun o o' => ∃ σ, After D T σ (fun V => List.Forall₂ (Decl.Like V V) o.1 o'.1)
          o.2 o'.2) := by
  induction ds with
  | nil =>
      intro ds' D T r r' hds _ h
      cases ds' with
      | nil => exact .run_pure ⟨_, h.after _ .nil⟩
      | cons d' ds' => cases hds
  | cons d ds ih =>
      intro l D T r r' hds hr h
      cases l with
      | nil => cases hds
      | cons d' ds' =>
          simp only [Decl.allRespell, Bool.and_eq_true] at hds
          rw [List.flatMap_cons, Part.allRead_append] at hr
          rw [decls, decls]
          refine (decl_alike hds.1 hr.1 h).run_bind fun d₁ d₂ r₁ r₁' h₁ => ?_
          obtain ⟨D₁, T₁, hD₁, hT₁, hσ₁, h₁, hd⟩ := h₁
          have hds := hds.2
          rw [← hσ₁] at hds
          refine (ih hds hr.2 h₁).run_bind fun ds₁ ds₂ r₂ r₂' h₂ => .run_pure ?_
          obtain ⟨σ, h₂⟩ := h₂
          exact ⟨σ, (h₂.imp fun V hV hds => .cons (hd.mono hV hV) hds).trans hD₁ hT₁⟩

end Resolver

end

/-- The names of two respelled programs are resolved in both or in neither, and then the programs
are alike. -/
theorem Program.resolve_alike {t t' : Program} (h : t.Respelled t') (hr : Part.AllRead p t.parts) :
    Agree t.resolve t'.resolve (fun u u' => ∃ V, Relator.BiUnique V ∧ u.Like V V u') := by
  have hstart : Resolution.Alike [] [[]] ⟨0, [[]]⟩ ⟨0, [[]]⟩ :=
    ⟨rfl, rfl, rfl, .nil, by simp [Twins.Bound]⟩
  have hds := Resolver.decls_alike t.decls (T := [[]]) h hr hstart
  refine Agree.bind
    (q := fun ds ds' => ∃ V, Relator.BiUnique V ∧ List.Forall₂ (Decl.Like V V) ds ds')
    (Agree.map (hds.imp ?_)) fun ds ds' hds => .pure hds
  rintro o o' ⟨σ, D, T, -, -, -, hT, hlike⟩
  exact ⟨D.Spelt, hT.pairs.biUnique, hlike⟩

end IntegerC
