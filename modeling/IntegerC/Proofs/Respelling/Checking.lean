import IntegerC.Proofs.Agreement
import IntegerC.Proofs.Respelling.Tables
import IntegerC.Typing

set_option autoImplicit false

/-! # Checking two spellings

Two alike programs with unique names are both checked or both refused. Their symbol tables then have
the same symbols in the same order, and names in use correspond if they stand at the same place of
the tables.
-/

namespace IntegerC

open Relator (BiUnique)
open SymbolTable (Paired Alike)

variable {V F : String → String → Prop}

/-! ## Constants -/

/-- The types are the same, and the values are the same or missing in both. -/
def Folded.Alike (f f' : Folded) : Prop :=
  f'.type = f.type ∧ Agree f.value f'.value (fun n n' => n' = n)

namespace Folded.Alike

variable {f f' g g' h h' : Folded}

theorem convert (hf : f.Alike f') (t : IntType) :
    Agree (f.convert t) (f'.convert t) (fun n n' => n' = n) :=
  .map (hf.2.imp fun _ _ e => by rw [e])

theorem unary (op : UnaryOp) (hf : f.Alike f') :
    (Folded.unary op f).Alike (Folded.unary op f') := by
  refine ⟨?_, ?_⟩
  · simp only [Folded.unary, hf.1]
  · rw [Folded.unary, Folded.unary, hf.1]
    exact .map (hf.2.imp fun _ _ e => by rw [e])

/-- Like operands fold to the same value, or both fail. The spans of the faults may be different. -/
theorem binary (s s' : Span) (op : BinaryOp) (hf : f.Alike f') (hg : g.Alike g') :
    (Folded.binary s op f g).Alike (Folded.binary s' op f' g') := by
  cases op with
  | logic op =>
      cases op with
      | and =>
          refine ⟨rfl, hf.2.bind ?_⟩
          rintro _ a rfl
          exact .ite (fun _ => .pure rfl) fun _ => hg.2.bind fun _ _ e => .pure (by rw [e])
      | or =>
          refine ⟨rfl, hf.2.bind ?_⟩
          rintro _ a rfl
          exact .ite (fun _ => .pure rfl) fun _ => hg.2.bind fun _ _ e => .pure (by rw [e])
  | shift op =>
      refine ⟨hf.1, hg.2.bind ?_⟩
      rintro _ count rfl
      refine hf.2.bind ?_
      rintro _ a rfl
      exact .pure (by rw [hf.1])
  | compare op =>
      rw [Folded.binary, Folded.binary, hf.1, hg.1]
      refine ⟨rfl, (hf.convert _).bind ?_⟩
      rintro _ a rfl
      exact (hg.convert _).bind fun _ _ e => .pure (by rw [e])
  | arith op =>
      rw [Folded.binary, Folded.binary, hf.1, hg.1]
      refine ⟨rfl, (hf.convert _).bind ?_⟩
      rintro _ a rfl
      refine (hg.convert _).bind ?_
      rintro _ b rfl
      -- the operator is given the same numbers, but it is blamed at another place
      cases op.eval (f.type.common g.type) a b with
      | ok n => exact .pure rfl
      | error division => exact .error _ _

theorem conditional (hf : f.Alike f') (hg : g.Alike g') (hh : h.Alike h') :
    (Folded.conditional f g h).Alike (Folded.conditional f' g' h') := by
  rw [Folded.conditional, Folded.conditional, hg.1, hh.1]
  refine ⟨rfl, hf.2.bind ?_⟩
  rintro _ a rfl
  exact .ite (fun _ => hg.convert _) fun _ => hh.convert _

end Folded.Alike

/-- Alike expressions are both constant or both not. -/
theorem Expr.fold_alike : (e : Expr) → ∀ {e' : Expr}, e.Like V F e' →
    (e.fold = none ∧ e'.fold = none) ∨ ∃ f f', e.fold = some f ∧ e'.fold = some f' ∧ f.Alike f'
  | .constant n c, _, ⟨n', rfl, _⟩ => .inr ⟨_, _, rfl, rfl, rfl, .pure rfl⟩
  | .var n x, _, ⟨n', y, rfl, _⟩ => .inl ⟨rfl, rfl⟩
  | .call n f es, _, ⟨n', g, es', rfl, _⟩ => .inl ⟨rfl, rfl⟩
  | .assignment n a b, _, ⟨n', a', b', rfl, _⟩ => .inl ⟨rfl, rfl⟩
  | .cast n t a, _, ⟨n', a', rfl, _, ha⟩ => by
      rcases a.fold_alike ha with ⟨h, h'⟩ | ⟨f, f', h, h', hf⟩
      · exact .inl (by simp [fold, h, h'])
      · exact .inr ⟨⟨t, f.convert t⟩, ⟨t, f'.convert t⟩, by simp [fold, h], by simp [fold, h'], rfl,
          hf.convert t⟩
  | .unary n op a, _, ⟨n', a', rfl, _, ha⟩ => by
      rcases a.fold_alike ha with ⟨h, h'⟩ | ⟨f, f', h, h', hf⟩
      · exact .inl (by simp [fold, h, h'])
      · exact .inr ⟨_, _, by simp [fold, h], by simp [fold, h'], hf.unary op⟩
  | .binary n op a b, _, ⟨n', a', b', rfl, _, ha, hb⟩ => by
      rcases a.fold_alike ha with ⟨h, h'⟩ | ⟨f, f', h, h', hf⟩
      · exact .inl (by simp [fold, h, h'])
      rcases b.fold_alike hb with ⟨k, k'⟩ | ⟨g, g', k, k', hg⟩
      · exact .inl (by simp [fold, h, h', k, k'])
      · exact .inr ⟨_, _, by simp [fold, h, k], by simp [fold, h', k'],
          hf.binary n.span n'.span op hg⟩
  | .conditional n a b c, _, ⟨n', a', b', c', rfl, _, ha, hb, hc⟩ => by
      rcases a.fold_alike ha with ⟨h, h'⟩ | ⟨f, f', h, h', hf⟩
      · exact .inl (by simp [fold, h, h'])
      rcases b.fold_alike hb with ⟨k, k'⟩ | ⟨g, g', k, k', hg⟩
      · exact .inl (by simp [fold, h, h', k, k'])
      rcases c.fold_alike hc with ⟨l, l'⟩ | ⟨i, i', l, l', hi⟩
      · exact .inl (by simp [fold, h, h', k, k', l, l'])
      · exact .inr ⟨_, _, by simp [fold, h, k, l], by simp [fold, h', k', l'],
          hf.conditional hg hi⟩

/-- Constant evaluation reads no name: corresponding expressions have the same value, or neither is
evaluated. -/
theorem Expr.constant?_alike {e e' : Expr} (h : e.Like V F e') :
    Agree e.constant? e'.constant? (fun c c' => c' = c) := by
  rw [constant?, constant?]
  rcases e.fold_alike h with ⟨hf, hf'⟩ | ⟨f, f', hf, hf', htype, hvalue⟩
  · rw [hf, hf']
    exact .pure rfl
  · rw [hf, hf']
    exact .map (hvalue.imp fun n n' hn => by rw [hn, htype])

/-- The initializers of two static objects of one type have the same value. -/
theorem VarDecl.staticValue?_alike {d d' : VarDecl} (ht : d'.type = d.type)
    (h : Expr.OptionLike V F d.init d'.init) :
    Agree d.staticValue? d'.staticValue? (fun c c' => c' = c) := by
  rw [staticValue?, staticValue?]
  cases hi : d.init with
  | none =>
      rw [hi] at h
      rw [show d'.init = none from h]
      exact .pure rfl
  | some e =>
      rw [hi] at h
      obtain ⟨e', he', he⟩ := h
      rw [he']
      refine .map (Agree.bind (Expr.constant?_alike he) ?_)
      rintro _ c rfl
      cases c with
      | none => exact .error _ _
      | some c => exact .pure (by rw [ht])

/-- A static variable whose initializer was folded has a constant there, in which no name is
left. -/
theorem VarDecl.withValue_alike {d d' : VarDecl} (h : Expr.OptionLike V F d.init d'.init)
    (value : Option Constant) {V' F' : String → String → Prop} :
    Expr.OptionLike V' F' (d.withValue value).init (d'.withValue value).init := by
  unfold withValue
  cases hi : d.init with
  | none =>
      rw [hi] at h
      rw [show d'.init = none from h]
      exact rfl
  | some e =>
      rw [hi] at h
      obtain ⟨e', he', -⟩ := h
      rw [he']
      cases value with
      | none => exact rfl
      | some c => exact ⟨_, rfl, _, rfl, rfl⟩

/-! ## Expressions -/

theorem Expr.typeOf_alike {e e' : Expr} (h : e'.type = e.type) :
    Agree e.typeOf e'.typeOf (fun t t' => t' = t) := by
  rw [typeOf, typeOf, h]
  cases e.type with
  | some t => exact .pure rfl
  | none => exact .error _ _

namespace Expr.Like

variable {e e' a a' b b' : Expr}

theorem typeOf (h : e.Like V F e') : Agree e.typeOf e'.typeOf (fun t t' => t' = t) :=
  Expr.typeOf_alike h.root_eq.2

theorem convert (h : e.Like V F e') (t : IntType) : (e.convert t).Like V F (e'.convert t) := by
  rw [Expr.convert, Expr.convert, h.root_eq.2]
  split
  · exact h
  · exact ⟨_, e', rfl, rfl, h⟩

theorem typed (n n' : Note) (op : BinaryOp) (ha : a.Like V F a') (hb : b.Like V F b')
    (s t : IntType) : (op.typed n a b s t).Like V F (op.typed n' a' b' s t) := by
  cases op with
  | logic op => exact ⟨_, a', b', rfl, rfl, ha, hb⟩
  | shift op => exact ⟨_, a', b', rfl, rfl, ha, hb⟩
  | compare op => exact ⟨_, _, _, rfl, rfl, ha.convert _, hb.convert _⟩
  | arith op => exact ⟨_, _, _, rfl, rfl, ha.convert _, hb.convert _⟩

end Expr.Like

theorem Expr.AllLike.length_eq :
    ∀ {es es' : List Expr}, AllLike V F es es' → es'.length = es.length
  | [], _, rfl => rfl
  | _ :: _, _, ⟨_, _, rfl, _, hes⟩ => congrArg (· + 1) hes.length_eq

theorem Expr.AllLike.convert :
    ∀ {es es' : List Expr} (ts : List IntType), AllLike V F es es' →
      AllLike V F (List.zipWith Expr.convert es ts) (List.zipWith Expr.convert es' ts)
  | [], _, _, rfl => by simp [AllLike]
  | _ :: _, _, [], ⟨_, _, rfl, _, _⟩ => rfl
  | _ :: _, _, t :: ts, ⟨_, _, rfl, he, hes⟩ => ⟨_, _, rfl, he.convert t, hes.convert ts⟩

section

variable {t t' : SymbolTable}

mutual
/-- Alike expressions are both checked or both refused, and then the names in use are in the tables
at the same places, those of called functions unchanged. -/
theorem Expr.check_alike (hV : BiUnique V) (ht : Alike V t t') :
    (e : Expr) → ∀ {e' : Expr}, e.Like V V e' →
      Agree (e.check t) (e'.check t') (Expr.Like (Paired t t') Eq)
  | .constant n c, _, ⟨n', rfl, _⟩ => by
      rw [check, check]
      exact .pure ⟨_, rfl, rfl⟩
  | .var n x, _, ⟨n', y, rfl, _, hx⟩ => by
      rw [check, check, ht.find?_eq hV hx]
      cases hs : t.find? x with
      | none => exact .error _ _
      | some s =>
          obtain ⟨type, attributes⟩ := s
          cases type with
          | function params result => exact .error _ _
          | integer i => exact .pure ⟨_, y, rfl, rfl, (ht.paired hV hx hs).1⟩
  | .cast n i a, _, ⟨n', a', rfl, _, ha⟩ => by
      rw [check, check]
      refine (check_alike hV ht a ha).bind fun a₁ a₂ ha => ?_
      refine ha.typeOf.bind fun _ _ _ => ?_
      exact .pure ⟨_, a₂, rfl, rfl, ha⟩
  | .unary n op a, _, ⟨n', a', rfl, _, ha⟩ => by
      rw [check, check]
      refine (check_alike hV ht a ha).bind fun a₁ a₂ ha => ?_
      refine ha.typeOf.bind ?_
      rintro _ i rfl
      exact .pure ⟨_, a₂, rfl, rfl, ha⟩
  | .binary n op a b, _, ⟨n', a', b', rfl, _, ha, hb⟩ => by
      rw [check, check]
      refine (check_alike hV ht a ha).bind fun a₁ a₂ ha => ?_
      refine (check_alike hV ht b hb).bind fun b₁ b₂ hb => ?_
      refine ha.typeOf.bind ?_
      rintro _ i rfl
      refine hb.typeOf.bind ?_
      rintro _ j rfl
      exact .pure (.typed n n' op ha hb i j)
  | .assignment n a b, _, ⟨n', a', b', rfl, _, ha, hb⟩ => by
      rw [check, check]
      refine (check_alike hV ht a ha).bind fun a₁ a₂ ha => ?_
      refine (check_alike hV ht b hb).bind fun b₁ b₂ hb => ?_
      refine ha.typeOf.bind ?_
      rintro _ i rfl
      exact .pure ⟨_, a₂, _, rfl, rfl, ha, hb.convert i⟩
  | .conditional n a b c, _, ⟨n', a', b', c', rfl, _, ha, hb, hc⟩ => by
      rw [check, check]
      refine (check_alike hV ht a ha).bind fun a₁ a₂ ha => ?_
      refine (check_alike hV ht b hb).bind fun b₁ b₂ hb => ?_
      refine (check_alike hV ht c hc).bind fun c₁ c₂ hc => ?_
      refine ha.typeOf.bind fun _ _ _ => ?_
      refine hb.typeOf.bind ?_
      rintro _ i rfl
      refine hc.typeOf.bind ?_
      rintro _ j rfl
      exact .pure ⟨_, a₂, _, _, rfl, rfl, ha, hb.convert _, hc.convert _⟩
  | .call n f es, _, ⟨n', g, es', rfl, _, hf, hes⟩ => by
      rw [check, check, ht.find?_eq hV hf]
      refine (checkAll_alike hV ht es hes).bind fun es₁ es₂ hes => ?_
      cases hs : t.find? f with
      | none => exact .error _ _
      | some s =>
          have hname := (ht.paired hV hf hs).2
          obtain ⟨type, attributes⟩ := s
          cases type with
          | integer i => exact .error _ _
          | function params result =>
              -- a function is no automatic variable, so it is called by the same name
              obtain rfl : g = f := by
                rcases hname with hname | ⟨i, hi⟩
                · exact hname
                · cases hi
              dsimp only
              rw [hes.length_eq]
              exact .ite (fun _ => .error _ _) fun _ =>
                .pure ⟨_, g, _, rfl, rfl, rfl, hes.convert params⟩
termination_by structural e => e

/-- Arguments are checked against tables with the same types at corresponding names. -/
theorem Expr.checkAll_alike (hV : BiUnique V) (ht : Alike V t t') :
    (es : List Expr) → ∀ {es' : List Expr}, AllLike V V es es' →
      Agree (checkAll t es) (checkAll t' es') (AllLike (Paired t t') Eq)
  | [], _, rfl => by
      rw [checkAll, checkAll]
      exact .pure rfl
  | e :: es, _, ⟨e', es', rfl, he, hes⟩ => by
      rw [checkAll, checkAll]
      refine (check_alike hV ht e he).bind fun e₁ e₂ he => ?_
      refine (checkAll_alike hV ht es hes).bind fun es₁ es₂ hes => ?_
      exact .pure ⟨e₂, es₂, rfl, he, hes⟩
termination_by structural es => es
end

/-! ## Static objects and functions -/

/-- Which entry a variable gets depends on the entry under its name before, on its type and on its
storage. -/
theorem VarDecl.fileEntry_alike {d d' : VarDecl} (htype : d'.type = d.type)
    (hstorage : d'.storage = d.storage) (value : Option Constant) (old : Option Symbol) :
    Agree (d.fileEntry value old) (d'.fileEntry value old) (fun s s' => s' = s) := by
  unfold fileEntry
  rw [htype, hstorage]
  rcases old with _ | ⟨type, _ | ⟨init, global⟩ | _⟩
  · exact .pure rfl
  · exact .error _ _
  · refine .ite (fun _ => .error _ _) fun _ => .ite (fun _ => .error _ _) fun _ => ?_
    split
    · exact .error _ _
    · exact .pure rfl
  · exact .error _ _

/-- Which entry a function gets depends on the entry under its name before and on its header. -/
theorem FunHeader.entry_alike {h h' : FunHeader} (hh : h.Like V h') (defines : Bool)
    (old : Option Symbol) :
    Agree (h.entry defines old) (h'.entry defines old) (fun s s' => s' = s) := by
  have htype : h'.type = h.type := by rw [FunHeader.type, FunHeader.type, hh.types, hh.result]
  unfold entry
  rw [htype, hh.storage]
  rcases old with _ | ⟨type, _ | _ | ⟨defined, global⟩⟩
  · exact .pure rfl
  · exact .error _ _
  · exact .error _ _
  · refine .ite (fun _ => .error _ _) fun _ => .ite (fun _ => .error _ _) fun _ => ?_
    exact .ite (fun _ => .error _ _) fun _ => .pure rfl

/-! ## Declarations -/

namespace Checker

/-- Two runs a few steps after tables `t` and `t'`: `like` says how the results correspond, given
which names are at the same places. -/
structure After (V : String → String → Prop) (t t' : SymbolTable)
    (like : (String → String → Prop) → Prop) (u u' : SymbolTable) : Prop where
  alike : Alike V u u'
  kept : ∀ x y, Paired t t' x y → Paired u u' x y
  result : like (Paired u u')

variable {u u' w w' : SymbolTable} {like like' : (String → String → Prop) → Prop}

theorem After.imp (h : After V t t' like u u')
    (himp : ∀ P : String → String → Prop, (∀ x y, Paired t t' x y → P x y) → like P → like' P) :
    After V t t' like' u u' :=
  ⟨h.alike, h.kept, himp _ h.kept h.result⟩

theorem After.trans (hkept : ∀ x y, Paired t t' x y → Paired u u' x y)
    (h : After V u u' like w w') : After V t t' like w w' :=
  ⟨h.alike, fun x y hxy => h.kept x y (hkept x y hxy), h.result⟩

/-- A step that leaves the tables alone. -/
theorem After.same (ht : Alike V t t') (like : (String → String → Prop) → Prop)
    (hlike : like (Paired t t')) : After V t t' like t t' :=
  ⟨ht, fun _ _ hxy => hxy, hlike⟩

theorem expr_alike (hV : BiUnique V) (ht : Alike V t t') {e e' : Expr} (he : e.Like V V e') :
    Agree ((expr e).run t) ((expr e').run t')
      (fun o o' => After V t t' (fun P => o.1.Like P Eq o'.1) o.2 o'.2) :=
  .run_get (.run_lift_last ((e.check_alike hV ht he).imp fun _ _ he => .same ht _ he))

theorem exprAs_alike (hV : BiUnique V) (ht : Alike V t t') (i : IntType) {e e' : Expr}
    (he : e.Like V V e') :
    Agree ((exprAs i e).run t) ((exprAs i e').run t')
      (fun o o' => After V t t' (fun P => o.1.Like P Eq o'.1) o.2 o'.2) :=
  (expr_alike hV ht he).run_bind fun _ _ _ _ he =>
    .run_pure (he.imp fun _ _ he => he.convert i)

/-- Corresponding expressions are checked to corresponding ones, with tables that stay alike. -/
theorem optionalExpr_alike (hV : BiUnique V) (ht : Alike V t t') {e e' : Option Expr}
    (he : Expr.OptionLike V V e e') :
    Agree ((optionalExpr e).run t) ((optionalExpr e').run t')
      (fun o o' => After V t t' (fun P => Expr.OptionLike P Eq o.1 o'.1) o.2 o'.2) := by
  cases e with
  | none =>
      obtain rfl : e' = none := he
      exact .run_pure (.same ht _ rfl)
  | some e =>
      obtain ⟨e₁, rfl, he⟩ := he
      exact .run_map ((expr_alike hV ht he).imp fun o o' ho => ho.imp fun _ _ he => ⟨o'.1, rfl, he⟩)

/-- What is recorded in both runs under corresponding names is found at the same place. -/
theorem record_alike (hV : BiUnique V) (ht : Alike V t t') {x y : String} (hx : V x y) {s : Symbol}
    (hs : y = x ∨ s.IsAutomatic) :
    Agree ((record x s).run t) ((record y s).run t')
      (fun o o' => After V t t' (fun P => P x y) o.2 o'.2) := by
  obtain ⟨hput, hxy, hkept⟩ := ht.put hV hx hs
  exact .pure ⟨hput, hkept, hxy⟩

/-- An automatic variable may have another name, and is recorded before its initializer is
checked. -/
theorem automaticVar_alike (hV : BiUnique V) (ht : Alike V t t') {d d' : VarDecl}
    (hd : d.Like V V d') (hs : d.storage = none) :
    Agree ((localVar d).run t) ((localVar d').run t')
      (fun o o' => After V t t' (fun P => o.1.Like P Eq o'.1) o.2 o'.2) := by
  rw [localVar, localVar, hd.storage, hd.type, hs]
  refine (record_alike hV ht hd.name (.inr ⟨d.type, rfl⟩)).run_bind fun _ _ t₁ t₁' h₁ => ?_
  -- the variable may be used in its own initializer
  have hinit := hd.init (by simp [hs])
  cases hi : d.init with
  | none =>
      rw [hi] at hinit
      rw [show d'.init = none from hinit]
      refine .run_pure (h₁.imp fun P _ hx => ?_)
      exact ⟨hd.type, hd.storage, hx, hd.fixed, fun _ => by rw [hi]; exact hinit, hd.given⟩
  | some init =>
      rw [hi] at hinit
      obtain ⟨init', hi', hinit⟩ := hinit
      rw [hi']
      refine (exprAs_alike hV h₁.alike d.type hinit).run_bind fun e e' _ _ h₂ => .run_pure ?_
      refine .trans h₁.kept (h₂.imp fun P hP he => ?_)
      exact ⟨rfl, rfl, hP _ _ h₁.result, fun hne => absurd rfl hne, fun _ => ⟨e', rfl, he⟩, rfl⟩

/-- A static variable keeps its name, so both tables get the same entry under it. -/
theorem staticVar_alike (hV : BiUnique V) (ht : Alike V t t') {d d' : VarDecl}
    (hd : d.Like V V d') (hs : d.storage = some .static) :
    Agree ((localVar d).run t) ((localVar d').run t')
      (fun o o' => After V t t' (fun P => o.1.Like P Eq o'.1) o.2 o'.2) := by
  have hname : d'.name = d.name := hd.fixed (by simp [hs])
  have hinit := hd.init (by simp [hs])
  have hx := hd.name
  rw [hname] at hx
  rw [localVar, localVar, hd.storage, hd.type, hname, hs]
  refine .run_lift (VarDecl.staticValue?_alike hd.type hinit) ?_
  rintro _ value rfl
  refine (record_alike hV ht hx (.inl rfl)).run_bind fun _ _ _ _ h₁ => .run_pure ?_
  refine h₁.imp fun P _ hx => ?_
  have hinit : Expr.OptionLike P Eq (d.withValue value).init (d'.withValue value).init :=
    VarDecl.withValue_alike hinit value
  exact ⟨hd.type, hd.storage, hname.symm ▸ hx, fun _ => hname, fun _ => hinit, hinit.isSome_eq⟩

/-- An `extern` variable has an initializer in both runs or in neither, and finds the same entry. -/
theorem externVar_alike (hV : BiUnique V) (ht : Alike V t t') {d d' : VarDecl}
    (hd : d.Like V V d') (hs : d.storage = some .external) :
    Agree ((localVar d).run t) ((localVar d').run t')
      (fun o o' => After V t t' (fun P => o.1.Like P Eq o'.1) o.2 o'.2) := by
  have hname : d'.name = d.name := hd.fixed (by simp [hs])
  have hx := hd.name
  rw [hname] at hx
  -- the declaration is answered as it is, so the answers are alike if the name is at one place
  have hlike : ∀ P : String → String → Prop, P d.name d.name → d.Like P Eq d' := fun P hx =>
    ⟨hd.type, hd.storage, hname.symm ▸ hx, hd.fixed, fun hne => absurd hs hne, hd.given⟩
  have hgiven := hd.given
  rw [localVar, localVar, hd.storage, hs]
  cases hi : d.init with
  | some init =>
      rw [hi, Option.isSome_some, Option.isSome_iff_exists] at hgiven
      obtain ⟨init', hi'⟩ := hgiven
      rw [hi']
      exact .run_throw
  | none =>
      rw [hi, Option.isSome_none, Option.isSome_eq_false_iff, Option.isNone_iff_eq_none] at hgiven
      rw [hgiven]
      dsimp only
      refine .run_get ?_
      -- the same name is found in both tables, with the same symbol or not at all
      rw [hname, ht.find?_eq hV hx]
      cases hold : t.find? d.name with
      | none =>
          rw [hd.type]
          exact (record_alike hV ht hx (.inl rfl)).run_bind fun _ _ _ _ h₁ =>
            .run_pure (h₁.imp fun P _ hx => hlike P hx)
      | some old =>
          refine .run_ite (by rw [hd.type]) (fun _ => .run_pure ?_) fun _ => .run_throw
          exact .same ht _ (hlike _ (ht.paired hV hx hold).1)

/-- Local variables that correspond are checked alike and become entries that correspond. -/
theorem localVar_alike (hV : BiUnique V) (ht : Alike V t t') {d d' : VarDecl}
    (hd : d.Like V V d') :
    Agree ((localVar d).run t) ((localVar d').run t')
      (fun o o' => After V t t' (fun P => o.1.Like P Eq o'.1) o.2 o'.2) := by
  cases hs : d.storage with
  | none => exact automaticVar_alike hV ht hd hs
  | some c =>
      cases c with
      | static => exact staticVar_alike hV ht hd hs
      | external => exact externVar_alike hV ht hd hs

/-- Headers that correspond are checked to entries that correspond. -/
theorem function_alike (hV : BiUnique V) (ht : Alike V t t') {h h' : FunHeader} (hh : h.Like V h')
    (defines : Bool) :
    Agree ((function h defines).run t) ((function h' defines).run t')
      (fun o o' => After V t t' (fun P => h.Like P h') o.2 o'.2) := by
  rw [function, function, hh.name]
  refine .run_get ?_
  rw [ht.find?_eq hV hh.known]
  refine .run_lift (FunHeader.entry_alike hh defines _) ?_
  rintro _ entry rfl
  refine (record_alike hV ht hh.known (.inl rfl)).imp fun o o' ho => ho.imp fun P _ hx => ?_
  exact ⟨hh.name, hx, hh.result, hh.storage, hh.types⟩

/-- Parameters are recorded under corresponding names with the same types. -/
theorem params_alike (hV : BiUnique V) {ps ps' : List Param}
    (hps : List.Forall₂ (Param.Like V) ps ps') :
    ∀ {t t' : SymbolTable}, Alike V t t' →
      Agree ((params ps).run t) ((params ps').run t')
        (fun o o' => After V t t' (fun P => List.Forall₂ (Param.Like P) ps ps') o.2 o'.2) := by
  induction hps with
  | nil => exact fun ht => .run_pure (.same ht _ .nil)
  | @cons q q' ps ps' hq _ ih =>
      intro t t' ht
      rw [params, params, hq.type]
      refine (record_alike hV ht hq.name (.inr ⟨q.type, rfl⟩)).run_bind fun _ _ t₁ t₁' h₁ => ?_
      refine (ih h₁.alike).imp fun o o' h₂ => .trans h₁.kept (h₂.imp fun P hP hps => ?_)
      exact .cons ⟨hq.type, hP _ _ h₁.result⟩ hps

/-! ## Statements -/

theorem forInit_alike (hV : BiUnique V) (ht : Alike V t t') {i i' : ForInit} (hi : i.Like V V i') :
    Agree ((forInit i).run t) ((forInit i').run t')
      (fun o o' => After V t t' (fun P => o.1.Like P Eq o'.1) o.2 o'.2) := by
  cases i with
  | nothing =>
      obtain rfl : i' = .nothing := hi
      exact .run_pure (.same ht _ rfl)
  | decl d =>
      obtain ⟨d', rfl, hd⟩ := hi
      exact (localVar_alike hV ht hd).run_bind fun _ d' _ _ hd =>
        .run_pure (hd.imp fun _ _ hd => ⟨d', rfl, hd⟩)
  | expr e =>
      obtain ⟨e', rfl, he⟩ := hi
      exact (expr_alike hV ht he).run_bind fun _ e' _ _ he =>
        .run_pure (he.imp fun _ _ he => ⟨e', rfl, he⟩)

mutual
/-- Both runs record the same symbols in the same order, so tables stay alike through a
statement. -/
theorem stmt_alike (hV : BiUnique V) (i : IntType) :
    (s : Stmt) → ∀ {s' : Stmt} {t t' : SymbolTable}, s.Like V V s' → Alike V t t' →
      Agree ((stmt i s).run t) ((stmt i s').run t')
        (fun o o' => After V t t' (fun P => o.1.Like P Eq o'.1) o.2 o'.2)
  | .ret _ e, _, t, t', ⟨q, e', rfl, he⟩, ht =>
      (exprAs_alike hV ht i he).run_bind fun _ e' _ _ he =>
        .run_pure (he.imp fun _ _ he => ⟨q, e', rfl, he⟩)
  | .expr _ e, _, t, t', ⟨q, e', rfl, he⟩, ht =>
      (expr_alike hV ht he).run_bind fun _ e' _ _ he =>
        .run_pure (he.imp fun _ _ he => ⟨q, e', rfl, he⟩)
  | .ifThen _ e yes, _, t, t', ⟨q, e', yes', rfl, he, hy⟩, ht => by
      rw [stmt, stmt]
      refine (expr_alike hV ht he).run_bind fun e₁ e₂ t₁ t₁' h₁ => ?_
      refine (stmt_alike hV i yes hy h₁.alike).run_bind fun y₁ y₂ t₂ t₂' h₂ => .run_pure ?_
      refine .trans h₁.kept (h₂.imp fun P hP hy => ?_)
      exact ⟨q, e₂, y₂, rfl, h₁.result.mono hP fun _ _ => id, hy⟩
  | .ifElse _ e yes no, _, t, t', ⟨q, e', yes', no', rfl, he, hy, hno⟩, ht => by
      rw [stmt, stmt]
      refine (expr_alike hV ht he).run_bind fun e₁ e₂ t₁ t₁' h₁ => ?_
      refine (stmt_alike hV i yes hy h₁.alike).run_bind fun y₁ y₂ t₂ t₂' h₂ => ?_
      refine (stmt_alike hV i no hno h₂.alike).run_bind fun n₁ n₂ t₃ t₃' h₃ => .run_pure ?_
      -- what was alike after the condition is alike in the tables at the end
      refine .trans h₁.kept (.trans h₂.kept (h₃.imp fun P hP hno => ?_))
      have he := h₁.result.mono (fun x y hxy => hP x y (h₂.kept x y hxy)) fun _ _ => id
      exact ⟨q, e₂, y₂, n₂, rfl, he, h₂.result.mono hP fun _ _ => id, hno⟩
  | .block _ is, _, t, t', ⟨q, is', rfl, his⟩, ht =>
      (items_alike hV i is his ht).run_bind fun _ is' _ _ his =>
        .run_pure (his.imp fun _ _ his => ⟨q, is', rfl, his⟩)
  | .breakLoop _ _, _, t, t', ⟨q, rfl⟩, ht => .run_pure (.same ht _ ⟨q, rfl⟩)
  | .continueLoop _ _, _, t, t', ⟨q, rfl⟩, ht => .run_pure (.same ht _ ⟨q, rfl⟩)
  | .whileLoop _ _ e body, _, t, t', ⟨q, e', body', rfl, he, hb⟩, ht => by
      rw [stmt, stmt]
      refine (expr_alike hV ht he).run_bind fun e₁ e₂ t₁ t₁' h₁ => ?_
      refine (stmt_alike hV i body hb h₁.alike).run_bind fun b₁ b₂ t₂ t₂' h₂ => .run_pure ?_
      refine .trans h₁.kept (h₂.imp fun P hP hb => ?_)
      exact ⟨q, e₂, b₂, rfl, h₁.result.mono hP fun _ _ => id, hb⟩
  | .doLoop _ _ body e, _, t, t', ⟨q, body', e', rfl, hb, he⟩, ht => by
      rw [stmt, stmt]
      refine (stmt_alike hV i body hb ht).run_bind fun b₁ b₂ t₁ t₁' h₁ => ?_
      refine (expr_alike hV h₁.alike he).run_bind fun e₁ e₂ t₂ t₂' h₂ => .run_pure ?_
      refine .trans h₁.kept (h₂.imp fun P hP he => ?_)
      exact ⟨q, b₂, e₂, rfl, h₁.result.mono hP fun _ _ => id, he⟩
  | .forLoop _ _ init e post body, _, t, t',
      ⟨q, init', e', post', body', rfl, hi, he, hp, hb⟩, ht => by
      rw [stmt, stmt]
      refine (forInit_alike hV ht hi).run_bind fun i₁ i₂ t₁ t₁' h₁ => ?_
      refine (optionalExpr_alike hV h₁.alike he).run_bind fun e₁ e₂ t₂ t₂' h₂ => ?_
      refine (optionalExpr_alike hV h₂.alike hp).run_bind fun p₁ p₂ t₃ t₃' h₃ => ?_
      refine (stmt_alike hV i body hb h₃.alike).run_bind fun b₁ b₂ t₄ t₄' h₄ => .run_pure ?_
      refine .trans h₁.kept (.trans h₂.kept (.trans h₃.kept (h₄.imp fun P hP hb => ?_)))
      have hP₃ : ∀ x y, Paired t₂ t₂' x y → P x y := fun x y hxy => hP x y (h₃.kept x y hxy)
      have hP₂ : ∀ x y, Paired t₁ t₁' x y → P x y := fun x y hxy => hP₃ x y (h₂.kept x y hxy)
      exact ⟨q, i₂, e₂, p₂, b₂, rfl, h₁.result.mono hP₂ fun _ _ => id,
        h₂.result.mono hP₃ fun _ _ => id, h₃.result.mono hP fun _ _ => id, hb⟩
  | .null _, _, t, t', ⟨q, rfl⟩, ht => .run_pure (.same ht _ ⟨q, rfl⟩)
termination_by structural s => s

theorem item_alike (hV : BiUnique V) (i : IntType) :
    (s : Item) → ∀ {s' : Item} {t t' : SymbolTable}, s.Like V V s' → Alike V t t' →
      Agree ((item i s).run t) ((item i s').run t')
        (fun o o' => After V t t' (fun P => o.1.Like P Eq o'.1) o.2 o'.2)
  | .stmt s, _, _, _, ⟨s', rfl, hs⟩, ht =>
      (stmt_alike hV i s hs ht).run_bind fun _ s' _ _ hs =>
        .run_pure (hs.imp fun _ _ hs => ⟨s', rfl, hs⟩)
  | .decl (.var _), _, _, _, ⟨d', rfl, hd⟩, ht =>
      (localVar_alike hV ht hd).run_bind fun _ d' _ _ hd =>
        .run_pure (hd.imp fun _ _ hd => ⟨d', rfl, hd⟩)
  | .decl (.prototype _), _, _, _, ⟨h', rfl, hh⟩, ht =>
      (function_alike hV ht hh false).run_bind fun _ _ _ _ hh =>
        .run_pure (hh.imp fun _ _ hh => ⟨h', rfl, hh⟩)
termination_by structural s => s

theorem items_alike (hV : BiUnique V) (i : IntType) :
    (is : List Item) → ∀ {is' : List Item} {t t' : SymbolTable}, Item.AllLike V V is is' →
      Alike V t t' →
      Agree ((items i is).run t) ((items i is').run t')
        (fun o o' => After V t t' (fun P => Item.AllLike P Eq o.1 o'.1) o.2 o'.2)
  | [], _, t, t', rfl, ht => .run_pure (.same ht _ rfl)
  | s :: is, _, t, t', ⟨s', is', rfl, hs, his⟩, ht => by
      rw [items, items]
      refine (item_alike hV i s hs ht).run_bind fun s₁ s₂ t₁ t₁' h₁ => ?_
      refine (items_alike hV i is his h₁.alike).run_bind fun is₁ is₂ t₂ t₂' h₂ => .run_pure ?_
      refine .trans h₁.kept (h₂.imp fun P hP his => ?_)
      exact ⟨s₂, is₂, rfl, h₁.result.mono hP fun _ _ => id, his⟩
termination_by structural is => is
end

/-! ## Programs -/

theorem fileVar_alike (hV : BiUnique V) (ht : Alike V t t') {d d' : VarDecl}
    (hd : d.FileLike V d') :
    Agree ((fileVar d).run t) ((fileVar d').run t')
      (fun o o' => After V t t' (fun P => o.1.FileLike P o'.1) o.2 o'.2) := by
  rw [fileVar, fileVar, hd.name]
  refine .run_lift (VarDecl.staticValue?_alike hd.type hd.init) ?_
  rintro _ value rfl
  refine .run_get ?_
  rw [ht.find?_eq hV hd.known]
  refine .run_lift (VarDecl.fileEntry_alike hd.type hd.storage value _) ?_
  rintro _ entry rfl
  refine (record_alike hV ht hd.known (.inl rfl)).run_bind fun _ _ _ _ h₁ => .run_pure ?_
  exact h₁.imp fun P _ hx =>
    ⟨hd.type, hd.storage, hd.name, hx, VarDecl.withValue_alike hd.init value⟩

/-- Declarations of the file have the same name in both programs, and are recorded under it. -/
theorem decl_alike (hV : BiUnique V) (ht : Alike V t t') {d d' : Decl} (hd : d.Like V V d') :
    Agree ((decl d).run t) ((decl d').run t')
      (fun o o' => After V t t' (fun P => o.1.Like P Eq o'.1) o.2 o'.2) := by
  cases d with
  | var d =>
      obtain ⟨d', rfl, hd⟩ := hd
      exact (fileVar_alike hV ht hd).run_bind fun _ d' _ _ hd =>
        .run_pure (hd.imp fun _ _ hd => ⟨d', rfl, hd⟩)
  | prototype h =>
      obtain ⟨h', rfl, hh⟩ := hd
      exact (function_alike hV ht hh false).run_bind fun _ _ _ _ hh =>
        .run_pure (hh.imp fun _ _ hh => ⟨h', rfl, hh⟩)
  | function h q body =>
      obtain ⟨h', q', body', rfl, hh, hps, hb⟩ := hd
      rw [decl, decl, hh.result]
      refine (function_alike hV ht hh true).run_bind fun _ _ t₁ t₁' h₁ => ?_
      refine (params_alike hV hps h₁.alike).run_bind fun _ _ t₂ t₂' h₂ => ?_
      refine (items_alike hV h.result body hb h₂.alike).run_bind fun b₁ b₂ t₃ t₃' h₃ => .run_pure ?_
      refine .trans h₁.kept (.trans h₂.kept (h₃.imp fun P hP hb => ?_))
      have hh := h₁.result.mono fun x y hxy => hP x y (h₂.kept x y hxy)
      exact ⟨h', q', b₂, rfl, hh, h₂.result.imp fun _ _ hp => hp.mono hP, hb⟩

theorem decls_alike (hV : BiUnique V) {ds ds' : List Decl}
    (hds : List.Forall₂ (Decl.Like V V) ds ds') :
    ∀ {t t' : SymbolTable}, Alike V t t' →
      Agree ((decls ds).run t) ((decls ds').run t')
        (fun o o' => After V t t' (fun P => List.Forall₂ (Decl.Like P Eq) o.1 o'.1) o.2 o'.2) := by
  induction hds with
  | nil => exact fun ht => .run_pure (.same ht _ .nil)
  | @cons d d' ds ds' hd _ ih =>
      intro t t' ht
      rw [decls, decls]
      refine (decl_alike hV ht hd).run_bind fun d₁ d₂ t₁ t₁' h₁ => ?_
      refine (ih h₁.alike).run_bind fun ds₁ ds₂ t₂ t₂' h₂ => .run_pure ?_
      refine .trans h₁.kept (h₂.imp fun P hP hds => ?_)
      exact .cons (h₁.result.mono hP fun _ _ => id) hds

end Checker

end

/-- Alike programs are both checked or both refused, and then names in use correspond if they stand
at the same place of the symbol tables. -/
theorem Program.check_alike (hV : BiUnique V) {p p' : Program} (h : p.Like V V p') :
    Agree (p.check []) (p'.check []) (fun r r' =>
      Alike V r.2 r'.2 ∧ r.1.Like (Paired r.2 r'.2) Eq r'.1) :=
  (Checker.decls_alike hV h .nil).bind fun _ _ hds => .pure ⟨hds.alike, hds.result⟩

end IntegerC
