import IntegerC.Proofs.Declarations
import IntegerC.Proofs.ResolvedNames

set_option autoImplicit false

/-! # Names that are looked up are known

The resolver knows the scopes around a place, the checker one table that grows from part to part.
Where names are declared before they are used, the checker meets the parts in that order and enters
the names that they make visible, so it finds an entry for each name that it looks up. The table it
starts from may be any.
-/

namespace IntegerC

/-! ## Names in the table -/

/-- The parameters of a function are among the names of the table once they are entered. -/
theorem SymbolTable.mem_names_withParams_of_mem {t : SymbolTable} {ps : List Param} {y : String}
    (h : y ∈ t.names ∨ y ∈ ps.map Param.name) : y ∈ (t.withParams ps).names := by
  induction ps generalizing t with
  | nil => exact h.resolve_right (by simp)
  | cons q ps ih =>
      refine ih ?_
      rw [List.map_cons, List.mem_cons] at h
      rw [Table.mem_names_put]
      rcases h with h | h | h
      · exact .inl (.inl h)
      · exact .inl (.inr h)
      · exact .inr h

namespace Part

variable {t u : SymbolTable} {x : Part} {xs ys : List Part} {seen : List String}

/-- Checking a part enters the names that it makes visible and keeps those that are there. -/
theorem Records.names_subset (h : x.Records t u) : x.visible ++ t.names ⊆ u.names := by
  have hput : ∀ (y : String) (s : Symbol), y :: t.names ⊆ (t.put y s).names := by
    intro y s n hn
    exact Table.mem_names_put.2 (List.mem_cons.1 hn).symm
  cases h with
  | span | loop | expr => exact List.Subset.refl _
  | fileVar _ _ | prototype _ => exact hput _ _
  | external hs _ _ =>
      rw [visible, linked, unlinked, if_pos hs, if_pos hs]
      exact hput _ _
  | known hs _ hold _ =>
      rw [visible, linked, unlinked, if_pos hs, if_pos hs]
      have hmem := List.mem_map_of_mem (f := Prod.fst) (Table.mem_of_find?_eq_some hold)
      exact List.cons_subset.2 ⟨hmem, List.Subset.refl _⟩
  | static hs _ | automatic hs =>
      rw [visible, linked, unlinked, if_neg (by simp [hs]), if_neg (by simp [hs])]
      exact hput _ _
  | @function f s _ =>
      intro n hn
      refine SymbolTable.mem_names_withParams_of_mem ?_
      simp only [visible, linked, unlinked, List.mem_append, List.mem_singleton] at hn
      rcases hn with (hn | hn) | hn
      · exact .inl (Table.mem_names_put.2 (.inr hn))
      · exact .inr hn
      · exact .inl (Table.mem_names_put.2 (.inl hn))

/-- The same for parts that are checked one after the other. -/
theorem Recorded.names_subset (h : Recorded t xs u) :
    xs.flatMap visible ++ t.names ⊆ u.names := by
  induction h with
  | nil => exact List.Subset.refl _
  | cons hx _ ih =>
      intro n hn
      refine ih ?_
      simp only [List.flatMap_cons, List.mem_append] at hn ⊢
      rcases hn with (hn | hn) | hn
      · exact .inr (hx.names_subset (List.mem_append_left _ hn))
      · exact .inl hn
      · exact .inr (hx.names_subset (List.mem_append_right _ hn))

theorem DeclaredFirst.left (h : DeclaredFirst seen (xs ++ ys)) : DeclaredFirst seen xs := by
  induction xs generalizing seen with
  | nil => trivial
  | cons x xs ih => exact ⟨h.1, ih h.2⟩

/-- What stands behind may use what the front has made visible. -/
theorem DeclaredFirst.right (h : DeclaredFirst seen (xs ++ ys)) :
    DeclaredFirst (xs.flatMap visible ++ seen) ys := by
  induction xs generalizing seen with
  | nil => exact h
  | cons x xs ih =>
      refine (ih h.2).mono fun n hn => ?_
      simp only [List.flatMap_cons, List.mem_append] at hn ⊢
      rcases hn with hn | hn | hn
      · exact .inl (.inr hn)
      · exact .inl (.inl hn)
      · exact .inr hn

/-- The parts behind others are declared first with respect to the table that these lead to. -/
theorem DeclaredFirst.behind (h : DeclaredFirst t.names (xs ++ ys)) (hu : Recorded t xs u) :
    DeclaredFirst u.names ys :=
  h.right.mono hu.names_subset

/-- The table that the expressions of a part are checked against, where `t` is the one in front of
the part: a variable is entered before its own initializer is looked at. -/
def against (t : SymbolTable) : Part → SymbolTable
  | .var d => t.put d.name (.automatic d.type)
  | _ => t

/-- Names that are declared first are in the table that a part is checked against. -/
theorem uses_subset_against (h : DeclaredFirst t.names (x :: xs)) :
    x.uses ⊆ (x.against t).names := by
  have hx : x.uses ⊆ x.visible ++ t.names := h.1
  cases x with
  | var d =>
      intro n hn
      refine Table.mem_names_put.2 ?_
      rcases List.mem_append.1 (hx hn) with hn | hn
      · rw [visible, linked, unlinked] at hn
        split at hn <;> exact .inr (by simpa using hn)
      · exact .inl hn
  | span _ | loop _ | expr _ => exact hx
  | fileVar _ | prototype _ | function _ => exact List.nil_subset _

end Part

/-! ## Names that the checker looks up -/

/-- A fault that does not tell of an unknown name. -/
def Fault.KnowsNames (f : Fault) : Prop := f.cause.category ≠ .undeclaredVariable

theorem Fault.knowsNames_of_conflict {f : Fault} {x : String} (h : f.cause.conflict? = some x) :
    f.KnowsNames := by
  obtain ⟨c, s⟩ := f
  cases c <;> simp_all [Cause.conflict?, KnowsNames, Cause.category]

namespace Expr

variable {t : SymbolTable}

theorem typeOf_knowsNames (e : Expr) : Ensures e.typeOf Fault.KnowsNames (fun _ => True) := by
  unfold typeOf
  split
  · exact .pure trivial
  · exact .error (by simp [Fault.KnowsNames, Cause.at, Cause.category])

mutual
/-- No name of an expression is unknown if the table has all of them. -/
theorem check_knowsNames :
    (e : Expr) → e.names ⊆ t.names → Ensures (e.check t) Fault.KnowsNames (fun _ => True)
  | constant _ _, _ => .pure trivial
  | var n x, h => by
      rw [check]
      split
      · rename_i hx
        exact absurd (h List.mem_cons_self) ((Table.find?_eq_none_iff t x).1 hx)
      · exact .error (by simp [Fault.KnowsNames, Cause.at, Cause.category])
      · exact .pure trivial
  | cast n target a, h => by
      rw [check]
      exact (check_knowsNames a h).bind fun a' _ => a'.typeOf_knowsNames.bind fun _ _ =>
        .pure trivial
  | unary n op a, h => by
      rw [check]
      exact (check_knowsNames a h).bind fun a' _ => a'.typeOf_knowsNames.bind fun _ _ =>
        .pure trivial
  | binary n op a b, h => by
      rw [check]
      obtain ⟨ha, hb⟩ := List.append_subset.1 h
      exact (check_knowsNames a ha).bind fun a' _ => (check_knowsNames b hb).bind fun b' _ =>
        a'.typeOf_knowsNames.bind fun _ _ => b'.typeOf_knowsNames.bind fun _ _ => .pure trivial
  | assignment n a b, h => by
      rw [check]
      obtain ⟨ha, hb⟩ := List.append_subset.1 h
      exact (check_knowsNames a ha).bind fun a' _ => (check_knowsNames b hb).bind fun b' _ =>
        a'.typeOf_knowsNames.bind fun _ _ => .pure trivial
  | conditional n a b c, h => by
      rw [check]
      obtain ⟨hab, hc⟩ := List.append_subset.1 h
      obtain ⟨ha, hb⟩ := List.append_subset.1 hab
      exact (check_knowsNames a ha).bind fun a' _ => (check_knowsNames b hb).bind fun b' _ =>
        (check_knowsNames c hc).bind fun c' _ => a'.typeOf_knowsNames.bind fun _ _ =>
          b'.typeOf_knowsNames.bind fun _ _ => c'.typeOf_knowsNames.bind fun _ _ => .pure trivial
  | call n f es, h => by
      rw [check]
      obtain ⟨hf, hes⟩ := List.cons_subset.1 h
      refine (checkAll_knowsNames es hes).bind fun es' _ => ?_
      split
      · rename_i hx
        exact absurd hf ((Table.find?_eq_none_iff t f).1 hx)
      · exact .error (by simp [Fault.KnowsNames, Cause.at, Cause.category])
      · exact .ite (fun _ => .error (by simp [Fault.KnowsNames, Cause.at, Cause.category]))
          fun _ => .pure trivial
termination_by structural e => e

theorem checkAll_knowsNames :
    (es : List Expr) → allNames es ⊆ t.names →
      Ensures (checkAll t es) Fault.KnowsNames (fun _ => True)
  | [], _ => .pure trivial
  | e :: es, h => by
      rw [checkAll]
      obtain ⟨he, hes⟩ := List.append_subset.1 h
      exact (check_knowsNames e he).bind fun _ _ => (checkAll_knowsNames es hes).bind fun _ _ =>
        .pure trivial
termination_by structural es => es
end

end Expr

namespace Checker

variable {α β : Type} {t u : SymbolTable} {xs ys : List Part}

/-- The checker, which follows the parts, finds each name that it looks up if the names are declared
first. -/
structure Finds (t : SymbolTable) (xs : List Part) (x : Checker α) : Prop where
  follows : Follows t xs x
  finds : Part.DeclaredFirst t.names xs →
    Ensures (x.run t) Fault.KnowsNames (fun _ => True)

namespace Finds

theorem pure (a : α) : Finds t [] (Pure.pure a : Checker α) := ⟨.pure a, fun _ => .run_pure trivial⟩

/-- What one part finds, the next may use: it runs on the table that the first has left. -/
theorem bind {x : Checker α} {g : α → Checker β} (h : Finds t xs x)
    (hg : ∀ a u, Finds u ys (g a)) : Finds t (xs ++ ys) (x >>= g) where
  follows := h.follows.bind fun a u _ => (hg a u).follows
  finds hd := by
    have hx : Ensures (x.run t) Fault.KnowsNames (fun o => Part.Recorded t xs o.2) := by
      have hrecorded := h.follows.answers
      cases hrun : x.run t with
      | ok o => exact hrecorded.ok_of_eq hrun
      | error f => exact (h.finds hd.left).bad_of_eq hrun
    exact hx.run_bind fun a u hu => (hg a u).finds (hd.behind hu)

theorem bind_pure {x : Checker α} {g : α → β} (h : Finds t xs x) :
    Finds t xs (x >>= fun a => Pure.pure (g a)) :=
  ⟨h.follows.bind_pure, fun hd => (h.finds hd).run_bind fun _ _ _ => .run_pure trivial⟩

theorem map {x : Checker α} {g : α → β} (h : Finds t xs x) : Finds t xs (g <$> x) :=
  ⟨h.follows.map, fun hd => .run_map ((h.finds hd).imp fun _ _ => trivial)⟩

/-- A part without names. -/
theorem cons {y : Part} {x : Checker α} (hr : y.Records t t) (hy : y.visible = [])
    (h : Finds t xs x) : Finds t (y :: xs) x :=
  ⟨.cons hr h.follows, fun hd => h.finds (by simpa [hy] using hd.2)⟩

theorem span {s : Span} {x : Checker α} (h : Finds t xs x) : Finds t (.span s :: xs) x :=
  .cons .span rfl h

theorem loop {l : Option String} {x : Checker α} (h : Finds t xs x) : Finds t (.loop l :: xs) x :=
  .cons .loop rfl h

end Finds

theorem expr_finds (e : Expr) : Finds t [.expr e] (expr e) where
  follows := expr_follows e
  finds hd := by
    have he : e.names ⊆ t.names := by
      simpa [Part.uses, Part.running, Part.visible, Part.linked, Part.unlinked] using hd.1
    exact .run_lift_last ((e.check_knowsNames he).imp fun _ _ => trivial)

theorem exprAs_finds (τ : IntType) (e : Expr) : Finds t [.expr e] (exprAs τ e) :=
  (expr_finds e).bind_pure

theorem optionalExpr_finds (o : Option Expr) : Finds t (Part.optional o) (optionalExpr o) := by
  cases o with
  | none => exact .pure _
  | some e => exact (expr_finds e).map

/-- The initializer of a static object is folded, and its names are not looked up. -/
theorem staticValue?_knowsNames (d : VarDecl) :
    Ensures d.staticValue? Fault.KnowsNames (fun _ => True) :=
  VarDecl.staticValue?_blames
    (fun _ _ _ _ _ => by simp [Fault.KnowsNames, Cause.at, Cause.category])
    fun _ _ => by simp [Fault.KnowsNames, Cause.at, Cause.category]

theorem fileVar_finds (d : VarDecl) : Finds t [.fileVar d] (fileVar d) where
  follows := fileVar_follows d
  finds _ := by
    rw [fileVar]
    refine .run_lift (staticValue?_knowsNames d) fun value _ => .run_get ?_
    exact .run_lift ((d.fileEntry_blames value _).mono (fun _ => Fault.knowsNames_of_conflict)
      fun _ => id) fun s _ => .run_modify (.run_pure trivial)

/-- The initializer of a variable is looked at when the variable itself is already known. -/
theorem localVar_finds (d : VarDecl) : Finds t [.var d] (localVar d) where
  follows := localVar_follows d
  finds hd := by
    rw [localVar]
    split
    · split
      · exact .run_throw (by simp [Fault.KnowsNames, Cause.at, Cause.category])
      · refine .run_get ?_
        split
        · exact .run_modify (.run_pure trivial)
        · exact .run_ite (fun _ => .run_pure trivial) fun _ =>
            .run_throw (by simp [Fault.KnowsNames, Cause.at, Cause.category])
    · exact .run_lift (staticValue?_knowsNames d) fun _ _ => .run_modify (.run_pure trivial)
    · rename_i hs
      refine .run_modify ?_
      split
      · exact .run_pure trivial
      · rename_i e he
        -- the initializer is checked against a table that has the variable
        have huses : e.names ⊆ (t.put d.name (.automatic d.type)).names := by
          have hsub := Part.uses_subset_against hd
          simpa [Part.uses, Part.running, VarDecl.running, hs, he, Part.against] using hsub
        refine .run_bind (q := fun _ => True) ?_ fun _ _ _ => .run_pure trivial
        refine .run_bind (q := fun _ => True) ?_ fun _ _ _ => .run_pure trivial
        exact .run_lift_last ((e.check_knowsNames huses).imp fun _ _ => trivial)

theorem function_knowsNames (f : FunHeader) (defines : Bool) :
    Ensures ((function f defines).run t) Fault.KnowsNames (fun _ => True) := by
  rw [function]
  exact .run_get (.run_lift ((f.entry_blames defines _).mono
    (fun _ => Fault.knowsNames_of_conflict) fun _ => id) fun s _ => .run_pure trivial)

theorem prototype_finds {f : FunHeader} {a : α} :
    Finds t [.prototype f] (do function f false; return a) :=
  ⟨prototype_follows, fun _ => (function_knowsNames f false).run_bind fun _ _ _ =>
    .run_pure trivial⟩

/-- The names of a definition are found once the function and its parameters are entered. -/
theorem definition_finds {x : Checker α} {f : FunHeader} (hx : ∀ u, Finds u xs x) :
    Finds t (.function f :: xs) (do function f true; params f.params; x) where
  follows := definition_follows fun u => (hx u).follows
  finds hd := by
    refine ((function_outcome f true).mono (fun fault hf => ?_) fun _ => id).run_bind ?_
    · exact Fault.knowsNames_of_conflict ((f.entry_blames true _).bad_of_eq hf)
    rintro _ _ ⟨s, hs, rfl⟩
    have hparams : Ensures ((params f.params).run (t.put f.name s)) Fault.KnowsNames
        (fun o => o.2 = SymbolTable.withParams (t.put f.name s) f.params) := by
      rw [run_params]
      exact .pure rfl
    refine hparams.run_bind ?_
    rintro _ _ rfl
    have hrecorded : Part.Recorded t [.function f] _ := .single (.function hs)
    exact (hx _).finds (Part.DeclaredFirst.behind hd hrecorded)

theorem forInit_finds (i : ForInit) : Finds t i.parts (forInit i) := by
  cases i with
  | nothing => exact .pure _
  | decl d => exact (localVar_finds d).bind_pure
  | expr e => exact (expr_finds e).bind_pure

/-! ### Statements -/

mutual
/-- Checking a statement follows its parts, and at each of them the table knows the names in use. -/
theorem stmt_finds (result : IntType) :
    (c : Stmt) → ∀ t : SymbolTable, Finds t c.parts (stmt result c)
  | .ret _ e, t => by
      rw [stmt]
      exact .span (exprAs_finds result e).bind_pure
  | .expr _ e, t => by
      rw [stmt]
      exact .span (expr_finds e).bind_pure
  | .ifThen _ e yes, t => by
      rw [stmt]
      exact .span ((expr_finds e).bind fun _ u => (stmt_finds result yes u).bind_pure)
  | .ifElse _ e yes no, t => by
      rw [stmt]
      exact .span ((expr_finds e).bind fun _ u => (stmt_finds result yes u).bind fun _ u' =>
        (stmt_finds result no u').bind_pure)
  | .block _ is, t => by
      rw [stmt]
      exact .span (items_find result is t).bind_pure
  | .whileLoop _ _ e body, t => by
      rw [stmt]
      exact .span (.loop ((expr_finds e).bind fun _ u => (stmt_finds result body u).bind_pure))
  | .doLoop _ _ body e, t => by
      rw [stmt]
      exact .span (.loop ((stmt_finds result body t).bind fun _ _ => (expr_finds e).bind_pure))
  | .forLoop _ _ init e post body, t => by
      rw [stmt]
      exact .span (.loop ((forInit_finds init).bind fun _ _ =>
        (optionalExpr_finds e).bind fun _ _ => (optionalExpr_finds post).bind fun _ u =>
          (stmt_finds result body u).bind_pure))
  | .breakLoop _ _, _ | .continueLoop _ _, _ | .null _, _ => .span (.pure _)
termination_by structural c => c

theorem item_finds (result : IntType) :
    (i : Item) → ∀ t : SymbolTable, Finds t i.parts (item result i)
  | .stmt c, t => by
      rw [item]
      exact (stmt_finds result c t).bind_pure
  | .decl (.var d), t => by
      rw [item]
      exact (localVar_finds d).bind_pure
  | .decl (.prototype f), t => by
      rw [item]
      exact prototype_finds
  | .decl (.function f _ body), t => by
      rw [item]
      exact definition_finds fun u => .span (items_find f.result body u).bind_pure
termination_by structural i => i

theorem items_find (result : IntType) :
    (is : List Item) → ∀ t : SymbolTable, Finds t (Item.allParts is) (items result is)
  | [], _ => .pure _
  | i :: is, t => by
      rw [items]
      exact (item_finds result i t).bind fun _ u => (items_find result is u).bind_pure
termination_by structural is => is
end

/-! ### Declarations of the file scope -/

theorem decl_finds (d : Decl) : Finds t d.parts (decl d) := by
  cases d with
  | var d => exact (fileVar_finds d).bind_pure
  | prototype f => exact prototype_finds
  | function f s body =>
      exact definition_finds fun u => .span (items_find f.result body u).bind_pure

theorem decls_find (ds : List Decl) :
    ∀ t : SymbolTable, Finds t (ds.flatMap Decl.parts) (decls ds) := by
  induction ds with
  | nil => exact fun _ => .pure _
  | cons d ds ih =>
      intro t
      rw [decls, List.flatMap_cons]
      exact (decl_finds d).bind fun _ u => (ih u).bind_pure

end Checker

/-! ## Programs -/

/-- Checking a program whose names are declared first finds each name that it looks up. -/
theorem Program.check_knowsNames {p : Program} {t : SymbolTable}
    (h : Part.DeclaredFirst t.names p.parts) :
    Ensures (p.check t) Fault.KnowsNames (fun _ => True) :=
  Ensures.bind ((Checker.decls_find p.decls t).finds h) fun _ _ => .pure trivial

/-- A program whose names are resolved is never refused for an unknown name when it is checked,
whatever the table at the start. Wherever in the program the checker has come to, the table that it
checks the next part against has an entry for each name in use there. -/
theorem Program.check_resolved_knows_names {p p' : Program} (h : p.resolve = .ok p')
    (t : SymbolTable) :
    (∀ f, p'.check t = .error f → f.cause.category ≠ .undeclaredVariable) ∧
      ∀ before x after u, p'.parts = before ++ x :: after → Part.Recorded t before u →
        ∀ n ∈ x.uses, ∃ s, (x.against u).find? n = some s := by
  have hd : Part.DeclaredFirst t.names p'.parts :=
    (p.resolve_declaredFirst.ok_of_eq h).mono (List.nil_subset _)
  refine ⟨fun f hf => (check_knowsNames hd).bad_of_eq hf, fun before x after u hsplit hu n hn => ?_⟩
  have hx : Part.DeclaredFirst u.names (x :: after) := Part.DeclaredFirst.behind (hsplit ▸ hd) hu
  refine Option.ne_none_iff_exists'.1 fun hnone => ?_
  exact (Table.find?_eq_none_iff _ n).1 hnone (Part.uses_subset_against hx hn)

/-- The text of a function whose names stand for its parameter, for variables of a block and of a
`for` header, for an object of another unit, and for a function that is only declared. -/
def lookupText : String :=
  "int f(int x) \x7b extern int y; int g(int x); do \x7b int x = x; y = g(x); \x7d while " ++
    "(x < y); for (int i = x; i < y; i = i + 1) x = i; return x; \x7d"

theorem Program.check_resolved_knows_names_lookupText :
    ∃ ts tree p, tokens lookupText = .ok ts ∧ Program.ofTokens ts = .ok tree ∧
      tree.resolve = .ok p ∧
      p.parts.flatMap Part.uses =
        ["x.2", "y", "g", "x.2", "x.0", "y", "x.0", "i.3", "y", "i.3", "i.3", "x.0", "i.3", "x.0"] ∧
      ∀ t, (∀ f, p.check t = .error f → f.cause.category ≠ .undeclaredVariable) ∧
        ∀ before x after u, p.parts = before ++ x :: after → Part.Recorded t before u →
          ∀ n ∈ x.uses, ∃ s, (x.against u).find? n = some s := by
  have hchars : lookupText.toList = _ := toList_append_eq String.toList_ofList String.toList_ofList
  have h : ((tokens lookupText).toOption.bind fun ts =>
      (Program.ofTokens ts).toOption.bind fun tree =>
        tree.resolve.toOption.bind fun p => some (p.parts.flatMap Part.uses)) =
      some ["x.2", "y", "g", "x.2", "x.0", "y", "x.0", "i.3", "y", "i.3", "i.3", "x.0", "i.3",
        "x.0"] := by
    rw [tokens, hchars]
    decide +kernel
  obtain ⟨ts, hts, h⟩ := toOption_bind_eq_some.1 h
  obtain ⟨tree, htree, h⟩ := toOption_bind_eq_some.1 h
  obtain ⟨p, hp, h⟩ := toOption_bind_eq_some.1 h
  exact ⟨ts, tree, p, hts, htree, hp, Option.some.inj h, check_resolved_knows_names hp⟩

end IntegerC
