import IntegerC.Proofs.LoopNames
import IntegerC.Proofs.Scoping

set_option autoImplicit false

/-! # Names are declared before they are used

In a program that keeps the rules of scoping, every name in an expression that runs is declared by
an earlier part of the text, or by the part of the expression itself. Local names are told apart
throughout a resolved program, so the declaration of a local name comes behind no use of that name
(`Arranged`).
-/

namespace IntegerC

/-! ## Names in use -/

namespace Expr

mutual
/-- The names in an expression: of variables, and of the functions that are called. -/
def names : Expr → List String
  | constant _ _ => []
  | var _ x => [x]
  | cast _ _ a | unary _ _ a => a.names
  | binary _ _ a b | assignment _ a b => a.names ++ b.names
  | conditional _ a b c => a.names ++ b.names ++ c.names
  | call _ f es => f :: allNames es

def allNames : List Expr → List String
  | [] => []
  | e :: es => e.names ++ allNames es
end

end Expr

namespace Part

/-- The names in the expressions of a part that run. -/
def uses (x : Part) : List String := x.running.flatMap Expr.names

/-- The names that a part declares for the parts behind it. -/
def visible (x : Part) : List String := x.linked ++ x.unlinked

def isFunction : Part → Bool
  | function _ => true
  | _ => false

@[simp] theorem uses_unlabelled (x : Part) : x.unlabelled.uses = x.uses := by cases x <;> rfl

@[simp] theorem visible_unlabelled (x : Part) : x.unlabelled.visible = x.visible := by
  cases x <;> rfl

@[simp] theorem isFunction_unlabelled (x : Part) : x.unlabelled.isFunction = x.isFunction := by
  cases x <;> rfl

/-- In each of the parts, every name in use is one of `seen` or is declared by that part or by one
before it. -/
def DeclaredFirst (seen : List String) : List Part → Prop
  | [] => True
  | x :: xs => x.uses ⊆ x.visible ++ seen ∧ DeclaredFirst (x.visible ++ seen) xs

end Part

namespace Part.DeclaredFirst

variable {seen seen' : List String} {x : Part} {xs ys : List Part}

/-- What was declared in front may as well be more. -/
theorem mono (hs : seen ⊆ seen') (h : DeclaredFirst seen xs) : DeclaredFirst seen' xs := by
  induction xs generalizing seen seen' with
  | nil => trivial
  | cons x xs ih =>
      have hx : x.visible ++ seen ⊆ x.visible ++ seen' :=
        List.append_subset.2 ⟨List.subset_append_left _ _,
          List.subset_append_of_subset_right _ hs⟩
      exact ⟨List.Subset.trans h.1 hx, ih hx h.2⟩

/-- Parts may be put behind others that declare the names which they use. -/
theorem append (hx : DeclaredFirst seen xs)
    (hy : DeclaredFirst (xs.flatMap visible ++ seen) ys) : DeclaredFirst seen (xs ++ ys) := by
  induction xs generalizing seen with
  | nil => exact hy
  | cons x xs ih =>
      refine ⟨hx.1, ih hx.2 (hy.mono ?_)⟩
      intro n hn
      simp only [List.flatMap_cons, List.mem_append] at hn ⊢
      rcases hn with (hn | hn) | hn
      · exact .inr (.inl hn)
      · exact .inl hn
      · exact .inr (.inr hn)

/-- A part in which no name is in use. -/
theorem cons_of_uses (hx : x.uses = []) (h : DeclaredFirst (x.visible ++ seen) xs) :
    DeclaredFirst seen (x :: xs) :=
  ⟨by simp [hx], h⟩

theorem expr {e : Expr} (he : e.names ⊆ seen) (h : DeclaredFirst seen xs) :
    DeclaredFirst seen (.expr e :: xs) :=
  ⟨by simpa [uses, visible, running, linked, unlinked] using he, h⟩

end Part.DeclaredFirst

/-! ## Scoped programs -/

namespace Scopes

/-- The names that are declared in the scopes around a place. -/
def names (σ : Scopes) : List String := σ.flatMap (·.map Entry.name)

@[simp] theorem names_enter (σ : Scopes) : names ([] :: σ) = names σ := rfl

@[simp] theorem names_declare (σ : Scopes) (d : Entry) :
    (σ.declare d).names = d.name :: σ.names := by
  cases σ <;> rfl

theorem mem_names_of_uses {word : String → String} {σ : Scopes} {x : String} (h : σ.Uses word x) :
    x ∈ σ.names := by
  obtain ⟨d, hd, rfl⟩ := Option.map_eq_some_iff.1 h
  obtain ⟨frame, hframe, hd⟩ := List.exists_of_findSome?_eq_some hd
  exact List.mem_flatMap.2 ⟨frame, hframe, List.mem_map_of_mem (List.mem_of_find?_eq_some hd)⟩

end Scopes

variable {word : String → String} {σ : Scopes} {seen : List String}

mutual
/-- An expression that keeps the rules of scoping uses only names of the scopes around it. -/
theorem Expr.names_subset_of_scoped :
    (e : Expr) → e.Scoped word σ → e.names ⊆ σ.names
  | .constant _ _, _ => List.nil_subset _
  | .var _ _, h => List.cons_subset.2 ⟨Scopes.mem_names_of_uses h, List.nil_subset _⟩
  | .cast _ _ a, h | .unary _ _ a, h => names_subset_of_scoped a h
  | .binary _ _ a b, h =>
      List.append_subset.2 ⟨names_subset_of_scoped a h.1, names_subset_of_scoped b h.2⟩
  | .assignment _ a b, h =>
      List.append_subset.2 ⟨names_subset_of_scoped a h.1, names_subset_of_scoped b h.2.1⟩
  | .conditional _ a b c, h =>
      List.append_subset.2 ⟨List.append_subset.2
        ⟨names_subset_of_scoped a h.1, names_subset_of_scoped b h.2.1⟩,
        names_subset_of_scoped c h.2.2⟩
  | .call _ _ es, h =>
      List.cons_subset.2 ⟨Scopes.mem_names_of_uses h.2, allNames_subset_of_scoped es h.1⟩
termination_by structural e => e

theorem Expr.allNames_subset_of_scoped :
    (es : List Expr) → Expr.AllScoped word σ es → allNames es ⊆ σ.names
  | [], _ => List.nil_subset _
  | e :: es, h =>
      List.append_subset.2 ⟨names_subset_of_scoped e h.1, allNames_subset_of_scoped es h.2⟩
termination_by structural es => es
end

/-- Parts of a block: names in use are declared first, and no function is defined. -/
structure Part.Inner (seen : List String) (parts : List Part) : Prop where
  declared : DeclaredFirst seen parts
  flat : ∀ x ∈ parts, x.isFunction = false

namespace Part.Inner

variable {x : Part} {xs ys : List Part}

theorem nil : Inner seen [] := ⟨trivial, by simp⟩

theorem append (hx : Inner seen xs) (hy : Inner (xs.flatMap visible ++ seen) ys) :
    Inner seen (xs ++ ys) :=
  ⟨hx.declared.append hy.declared, List.forall_mem_append.2 ⟨hx.flat, hy.flat⟩⟩

theorem span {s : Span} (h : Inner seen xs) : Inner seen (.span s :: xs) :=
  ⟨.cons_of_uses rfl h.declared, List.forall_mem_cons.2 ⟨rfl, h.flat⟩⟩

theorem loop {l : Option String} (h : Inner seen xs) : Inner seen (.loop l :: xs) :=
  ⟨.cons_of_uses rfl h.declared, List.forall_mem_cons.2 ⟨rfl, h.flat⟩⟩

theorem expr {e : Expr} (he : e.Scoped word σ) (hσ : σ.names ⊆ seen) (h : Inner seen xs) :
    Inner seen (.expr e :: xs) :=
  ⟨.expr (List.Subset.trans (e.names_subset_of_scoped he) hσ) h.declared,
    List.forall_mem_cons.2 ⟨rfl, h.flat⟩⟩

theorem optional {o : Option Expr} (ho : Expr.OptionScoped word σ o) (hσ : σ.names ⊆ seen)
    (h : Inner seen xs) : Inner seen (Part.optional o ++ xs) := by
  cases o with
  | none => exact h
  | some e => exact .expr (ho e rfl) hσ h

end Part.Inner

theorem VarDecl.name_mem_visible (d : VarDecl) : d.name ∈ (Part.var d).visible := by
  rw [Part.visible, Part.linked, Part.unlinked]
  split <;> simp

/-- A variable of a block is visible in its own initializer, so its declaration counts before its
use. -/
theorem VarDecl.inner {d : VarDecl} (h : d.Scoped word σ) (hσ : σ.names ⊆ seen) :
    Part.Inner seen [.var d] := by
  refine ⟨⟨?_, trivial⟩, by simp [Part.isFunction]⟩
  -- a variable is visible in its own initializer
  have hnames : (σ.declare d.entry).names ⊆ (Part.var d).visible ++ seen := by
    rw [Scopes.names_declare]
    exact List.cons_subset.2 ⟨List.mem_append_left _ d.name_mem_visible,
      List.subset_append_of_subset_right _ hσ⟩
  intro n hn
  obtain ⟨e, he, hn⟩ := List.mem_flatMap.1 hn
  rw [Part.running, running] at he
  split at he
  · rename_i hs
    have he' : e ∈ d.init := by simpa using he
    exact hnames (e.names_subset_of_scoped (h.2 (by simp [hs]) e he') hn)
  · cases he

theorem VarDecl.names_subset (d : VarDecl) (hσ : σ.names ⊆ seen) :
    (σ.declare d.entry).names ⊆ [Part.var d].flatMap Part.visible ++ seen := by
  rw [Scopes.names_declare]
  have hname : d.name ∈ [Part.var d].flatMap Part.visible := by
    simpa using d.name_mem_visible
  exact List.cons_subset.2 ⟨List.mem_append_left _ hname, List.subset_append_of_subset_right _ hσ⟩

theorem ForInit.inner {i : ForInit} (h : i.Scoped word σ) (hσ : σ.names ⊆ seen) :
    Part.Inner seen i.parts := by
  cases i with
  | nothing => exact .nil
  | decl d => exact d.inner h.2 hσ
  | expr e => exact .expr h hσ .nil

theorem ForInit.names_subset (i : ForInit) (hσ : σ.names ⊆ seen) :
    (i.after σ).names ⊆ i.parts.flatMap Part.visible ++ seen := by
  cases i with
  | decl d => exact d.names_subset hσ
  | nothing | expr _ => exact List.subset_append_of_subset_right _ hσ

/-- Behind an item, what is in scope was in scope before or is declared by the item itself. -/
theorem Item.names_subset {i : Item} (h : i.Scoped word σ) (hσ : σ.names ⊆ seen) :
    (i.after σ).names ⊆ i.parts.flatMap Part.visible ++ seen := by
  match i, h with
  | .stmt _, _ => exact List.subset_append_of_subset_right _ hσ
  | .decl (.var d), _ => exact d.names_subset hσ
  | .decl (.prototype f), _ =>
      rw [Item.after, Scopes.names_declare]
      refine List.cons_subset.2 ⟨List.mem_append_left _ ?_, List.subset_append_of_subset_right _ hσ⟩
      simp [Item.parts, Part.visible, Part.linked]

mutual
/-- A statement that keeps the rules of scoping declares its names before it uses them, in each
scope that it opens. -/
theorem Stmt.inner :
    (s : Stmt) → ∀ {σ : Scopes} {seen : List String}, s.Scoped word σ → σ.names ⊆ seen →
      Part.Inner seen s.parts
  | .ret _ e, _, _, h, hσ | .expr _ e, _, _, h, hσ => .span (.expr h hσ .nil)
  | .ifThen _ e yes, _, _, h, hσ => .span (.expr h.1 hσ (yes.inner h.2 hσ))
  | .ifElse _ e yes no, _, _, h, hσ =>
      .span (.expr h.1 hσ ((yes.inner h.2.1 hσ).append
        (no.inner h.2.2 (List.subset_append_of_subset_right _ hσ))))
  | .block _ is, _, _, h, hσ => .span (Item.allInner is h hσ)
  | .whileLoop _ _ e body, _, _, h, hσ => .span (.loop (.expr h.1 hσ (body.inner h.2 hσ)))
  | .doLoop _ _ body e, _, _, h, hσ =>
      .span (.loop ((body.inner h.2 hσ).append
        (.expr h.1 (List.subset_append_of_subset_right _ hσ) .nil)))
  | .forLoop _ _ init e post body, _, _, h, hσ => by
      obtain ⟨hinit, he, hpost, hbody⟩ := h
      have henter := (Scopes.names_enter _).symm ▸ hσ
      have hnames := init.names_subset henter
      refine .span (.loop ((ForInit.inner hinit henter).append ?_))
      exact .optional he hnames (.optional hpost hnames (body.inner hbody hnames))
  | .breakLoop _ _, _, _, _, _ | .continueLoop _ _, _, _, _, _ | .null _, _, _, _, _ => .span .nil
termination_by structural s => s

/-- The parts inside an item use only what is in scope where the item stands. -/
theorem Item.inner :
    (i : Item) → ∀ {σ : Scopes} {seen : List String}, i.Scoped word σ → σ.names ⊆ seen →
      Part.Inner seen i.parts
  | .stmt s, _, _, h, hσ => s.inner h hσ
  | .decl (.var d), _, _, h, hσ => d.inner h hσ
  | .decl (.prototype _), _, _, _, _ =>
      ⟨.cons_of_uses rfl trivial, by simp [Item.parts, Part.isFunction]⟩
  | .decl (.function _ _ _), _, _, h, _ => h.elim
termination_by structural i => i

theorem Item.allInner :
    (is : List Item) → ∀ {σ : Scopes} {seen : List String}, Item.AllScoped word σ is →
      σ.names ⊆ seen → Part.Inner seen (Item.allParts is)
  | [], _, _, _, _ => .nil
  | i :: is, _, _, h, hσ =>
      (i.inner h.1 hσ).append (Item.allInner is h.2 (i.names_subset h.1 hσ))
termination_by structural is => is
end

/-- A function in which no other function is defined. -/
def Decl.Flat (d : Decl) : Prop := ∀ x ∈ d.parts.tail, x.isFunction = false

/-- After the parameters only they and the names around them are visible. -/
theorem Param.names_after_subset (ps : List Param) :
    ∀ σ : Scopes, (Param.after σ ps).names ⊆ ps.map Param.name ++ σ.names := by
  induction ps with
  | nil => exact fun σ => List.Subset.refl _
  | cons p ps ih =>
      intro σ n hn
      have hn := ih (σ.declare ⟨p.name, false⟩) hn
      simp only [Scopes.names_declare, List.mem_append, List.mem_cons, List.map_cons] at hn ⊢
      rcases hn with hn | hn | hn
      · exact .inl (.inr hn)
      · exact .inl (.inl hn)
      · exact .inr hn

/-- Inside a function, its name and its parameters stand in front of what was in scope. -/
theorem FunHeader.names_inside_subset (h : FunHeader) (hσ : σ.names ⊆ seen) :
    (h.inside σ).names ⊆ (Part.function h).visible ++ seen := by
  intro n hn
  have hn := Param.names_after_subset h.params _ hn
  simp only [Scopes.names_enter, Scopes.names_declare, List.mem_append, List.mem_cons] at hn
  simp only [Part.visible, Part.linked, Part.unlinked, FunHeader.paramNames, List.mem_append,
    List.mem_singleton]
  rcases hn with hn | hn | hn
  · exact .inl (.inr hn)
  · exact .inl (.inl hn)
  · exact .inr (hσ hn)

/-- A declaration at file scope uses only what is declared before it, and holds no function inside a
function. -/
theorem Decl.declaredFirst {d : Decl} (h : d.Scoped word σ) (hσ : σ.names ⊆ seen) :
    Part.DeclaredFirst seen d.parts ∧ d.Flat := by
  cases d with
  | var d => exact ⟨.cons_of_uses rfl trivial, by simp [Flat, parts]⟩
  | prototype f => exact ⟨.cons_of_uses rfl trivial, by simp [Flat, parts]⟩
  | function f s body =>
      have hbody := (Item.allInner body h.2 (f.names_inside_subset hσ)).span (s := s)
      exact ⟨.cons_of_uses rfl hbody.declared, hbody.flat⟩

theorem Decl.names_subset {d : Decl} (hσ : σ.names ⊆ seen) :
    (d.after σ).names ⊆ d.parts.flatMap Part.visible ++ seen := by
  have hname : ∀ x : String, x ∈ d.parts.flatMap Part.visible →
      (σ.declare ⟨x, true⟩).names ⊆ d.parts.flatMap Part.visible ++ seen := by
    intro x hx
    rw [Scopes.names_declare]
    exact List.cons_subset.2 ⟨List.mem_append_left _ hx, List.subset_append_of_subset_right _ hσ⟩
  cases d with
  | var _ | prototype _ | function _ _ _ =>
      exact hname _ (by simp [parts, Part.visible, Part.linked])

theorem Decl.allDeclaredFirst (ds : List Decl) :
    ∀ {σ : Scopes} {seen : List String}, Decl.AllScoped word σ ds → σ.names ⊆ seen →
      Part.DeclaredFirst seen (ds.flatMap Decl.parts) ∧ ∀ d ∈ ds, d.Flat := by
  induction ds with
  | nil => exact fun _ _ => ⟨trivial, by simp⟩
  | cons d ds ih =>
      intro σ seen h hσ
      have hd := Decl.declaredFirst h.1 hσ
      have hds := ih h.2 (Decl.names_subset hσ)
      exact ⟨hd.1.append hds.1, List.forall_mem_cons.2 ⟨hd.2, hds.2⟩⟩

/-- Names are declared before they are used, and functions are not defined inside functions. -/
theorem Program.declaredFirst {p : Program} (h : p.Scoped word) :
    Part.DeclaredFirst [] p.parts ∧ ∀ d ∈ p.decls, d.Flat :=
  Decl.allDeclaredFirst p.decls h (List.Subset.refl _)

/-! ## Declarations behind uses -/

/-- Parts in which no name is declared without linkage after it was used or declared. -/
structure Arranged (parts : List Part) : Prop where
  apart : parts.Pairwise fun x y => ∀ n ∈ x.uses ++ x.visible, n ∉ y.unlinked
  own : ∀ x ∈ parts, x.visible.Nodup
  assigns : ∀ e ∈ parts.flatMap Part.running, e.AssignsVars

namespace Arranged

variable {x : Part} {l r : List Part}

theorem right (h : Arranged (l ++ r)) : Arranged r where
  apart := (List.pairwise_append.1 h.apart).2.1
  own := (List.forall_mem_append.1 h.own).2
  assigns := by
    have ha := h.assigns
    rw [List.flatMap_append, List.forall_mem_append] at ha
    exact ha.2

theorem tail (h : Arranged (x :: l)) : Arranged l := right (l := [x]) h

/-- What is used or declared in a part is not declared behind it. -/
theorem notMem {n : String} (h : Arranged (x :: l)) (hn : n ∈ x.uses ++ x.visible) :
    n ∉ l.flatMap Part.unlinked := by
  intro hm
  obtain ⟨y, hy, hm⟩ := List.mem_flatMap.1 hm
  exact (List.pairwise_cons.1 h.apart).1 y hy n hn hm

/-- The order of declarations and uses takes no notice of labels. -/
theorem of_sameParts (hs : SameParts l r) (h : Arranged r) : Arranged l := by
  have hmap : ∀ zs : List Part, Arranged zs ↔ Arranged (zs.map Part.unlabelled) := by
    have hunlinked : ∀ x : Part, x.unlabelled.unlinked = x.unlinked := fun x => by cases x <;> rfl
    have hrunning : ∀ x : Part, x.unlabelled.running = x.running := fun x => by cases x <;> rfl
    intro zs
    constructor
    · intro h
      refine ⟨?_, ?_, ?_⟩
      · simpa [List.pairwise_map, hunlinked] using h.apart
      · simpa using h.own
      · simpa [List.flatMap_map, hrunning] using h.assigns
    · intro h
      refine ⟨?_, ?_, ?_⟩
      · simpa [List.pairwise_map, hunlinked] using h.apart
      · simpa using h.own
      · simpa [List.flatMap_map, hrunning] using h.assigns
  rw [hmap, hs, ← hmap]
  exact h

end Arranged

/-- Names that are declared first and made only once are not declared without linkage after a use or
another declaration. -/
theorem Part.DeclaredFirst.pairwise {xs : List Part} (h : DeclaredFirst seen xs)
    (hseen : ∀ n ∈ seen, n ∉ xs.flatMap Part.unlinked)
    (hlinked : ∀ n ∈ xs.flatMap Part.linked, n ∉ xs.flatMap Part.unlinked)
    (hnodup : (xs.flatMap Part.unlinked).Nodup) :
    xs.Pairwise fun x y => ∀ n ∈ x.uses ++ x.visible, n ∉ y.unlinked := by
  induction xs generalizing seen with
  | nil => exact .nil
  | cons x xs ih =>
      simp only [List.flatMap_cons, List.mem_append, not_or] at hseen hlinked
      rw [List.flatMap_cons] at hnodup
      obtain ⟨-, hrest, hapart⟩ := List.nodup_append.1 hnodup
      have hvisible : ∀ n ∈ x.visible, n ∉ xs.flatMap Part.unlinked := by
        intro n hn hm
        rcases List.mem_append.1 hn with hn | hn
        · exact (hlinked n (.inl hn)).2 hm
        · exact hapart n hn n hm rfl
      have hknown : ∀ n ∈ x.visible ++ seen, n ∉ xs.flatMap Part.unlinked :=
        List.forall_mem_append.2 ⟨hvisible, fun n hn => (hseen n hn).2⟩
      refine List.pairwise_cons.2 ⟨fun y hy n hn hm => ?_, ih h.2 hknown
        (fun n hn => (hlinked n (.inr hn)).2) hrest⟩
      have hm : n ∈ xs.flatMap Part.unlinked := List.mem_flatMap.2 ⟨y, hy, hm⟩
      rcases List.mem_append.1 hn with hn | hn
      · exact hknown n (h.1 hn) hm
      · exact hvisible n hn hm

/-- Resolved programs are arranged: unique names are made once, and names with linkage are never
unique names. -/
theorem Arranged.of_resolved {p : Span → Prop} {lo hi : Nat} {xs : List Part}
    (h : Resolved p lo hi xs) (hd : Part.DeclaredFirst [] xs) : Arranged xs := by
  have hlinked : ∀ n ∈ xs.flatMap Part.linked, n ∉ xs.flatMap Part.unlinked := by
    intro n hn hm
    obtain ⟨x, hx, hn⟩ := List.mem_flatMap.1 hn
    exact h.unlinked.not_plain n hm ((h.read x hx).plain n hn)
  refine ⟨hd.pairwise (by simp) hlinked h.unlinked.nodup, fun x hx => ?_, h.assigns⟩
  have hsub : x.unlinked.Sublist (xs.flatMap Part.unlinked) := by
    rw [List.flatMap_def]
    exact List.sublist_flatten_of_mem (List.mem_map_of_mem hx)
  refine List.nodup_append.2 ⟨?_, h.unlinked.nodup.sublist hsub, ?_⟩
  · cases x with
    | var d =>
        rw [Part.linked]
        split <;> simp
    | _ => simp [Part.linked]
  · intro n hn n' hn' e
    subst e
    exact hlinked n (List.mem_flatMap.2 ⟨x, hx, hn⟩) (hsub.subset hn')

end IntegerC
