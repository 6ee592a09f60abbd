import IntegerC.Proofs.Names
import IntegerC.Syntax

set_option autoImplicit false

/-! # What stands in a tree

`parts` lists the parts of a tree in the order of the source text. Of these parts one can then take
the spans, the names that they declare with and without linkage, the labels of loops, and the
expressions that are evaluated when the program runs.
-/

namespace IntegerC

/-! ## Expressions -/

namespace Expr

/-- The spans of an expression and of all its parts. -/
def spans (e : Expr) : List Span := e.postorder.map span

def spansAll (es : List Expr) : List Span := (postorderAll es).map span

theorem spans_node {e : Expr} {l : List Expr} (h : e.postorder = l ++ [e]) :
    e.spans = l.map span ++ [e.span] := by
  rw [spans, h, List.map_append, List.map_singleton]

@[simp] theorem spans_constant (n : Note) (c : Constant) : (constant n c).spans = [n.span] := rfl

@[simp] theorem spans_var (n : Note) (x : String) : (var n x).spans = [n.span] := rfl

@[simp] theorem spans_cast (n : Note) (t : IntType) (a : Expr) :
    (cast n t a).spans = a.spans ++ [n.span] :=
  spans_node rfl

@[simp] theorem spans_unary (n : Note) (op : UnaryOp) (a : Expr) :
    (unary n op a).spans = a.spans ++ [n.span] :=
  spans_node rfl

@[simp] theorem spans_binary (n : Note) (op : BinaryOp) (a b : Expr) :
    (binary n op a b).spans = a.spans ++ b.spans ++ [n.span] :=
  (spans_node rfl).trans (congrArg (· ++ _) List.map_append)

@[simp] theorem spans_assignment (n : Note) (a b : Expr) :
    (assignment n a b).spans = a.spans ++ b.spans ++ [n.span] :=
  (spans_node rfl).trans (congrArg (· ++ _) List.map_append)

@[simp] theorem spans_conditional (n : Note) (a b c : Expr) :
    (conditional n a b c).spans = a.spans ++ b.spans ++ c.spans ++ [n.span] := by
  have hspans := spans_node (e := conditional n a b c) rfl
  rwa [List.map_append, List.map_append] at hspans

@[simp] theorem spans_call (n : Note) (f : String) (es : List Expr) :
    (call n f es).spans = spansAll es ++ [n.span] :=
  spans_node rfl

@[simp] theorem spansAll_nil : spansAll [] = [] := rfl

@[simp] theorem spansAll_cons (e : Expr) (es : List Expr) :
    spansAll (e :: es) = e.spans ++ spansAll es :=
  List.map_append

theorem span_mem_spans (e : Expr) : e.span ∈ e.spans := by
  cases e <;> simp [span, note]

/-- A list of expressions that has the parts of all its members. -/
def Closed (l : List Expr) : Prop := ∀ a ∈ l, a.postorder ⊆ l

namespace Closed

variable {l r : List Expr}

theorem append (hl : Closed l) (hr : Closed r) : Closed (l ++ r) := by
  intro a ha
  rcases List.mem_append.1 ha with ha | ha
  · exact List.Subset.trans (hl a ha) (List.subset_append_left l r)
  · exact List.Subset.trans (hr a ha) (List.subset_append_right l r)

theorem node {e : Expr} (he : e.postorder = l ++ [e]) (hl : Closed l) : Closed e.postorder := by
  intro a ha
  rw [he, List.mem_append, List.mem_singleton] at ha
  rcases ha with ha | rfl
  · rw [he]
    exact List.Subset.trans (hl a ha) (List.subset_append_left l [e])
  · exact List.Subset.refl _

theorem nil : Closed [] := fun _ h => by cases h

end Closed

mutual
/-- With each node of an expression stand all of its own parts. -/
theorem closed_postorder : (e : Expr) → Closed e.postorder
  | constant _ _ | var _ _ => .node (List.nil_append _).symm .nil
  | cast _ _ a | unary _ _ a => .node rfl (closed_postorder a)
  | binary _ _ a b | assignment _ a b =>
      .node rfl ((closed_postorder a).append (closed_postorder b))
  | conditional _ a b c =>
      .node rfl (((closed_postorder a).append (closed_postorder b)).append (closed_postorder c))
  | call _ _ es => .node rfl (closed_postorderAll es)
termination_by structural e => e

theorem closed_postorderAll : (es : List Expr) → Closed (postorderAll es)
  | [] => .nil
  | e :: es => (closed_postorder e).append (closed_postorderAll es)
termination_by structural es => es
end

mutual
/-- Every assignment in an expression is to a variable. -/
def AssignsVars : Expr → Prop
  | constant _ _ | var _ _ => True
  | cast _ _ a | unary _ _ a => a.AssignsVars
  | binary _ _ a b => a.AssignsVars ∧ b.AssignsVars
  | assignment _ a b => a.isVar = true ∧ b.AssignsVars
  | conditional _ a b c => a.AssignsVars ∧ b.AssignsVars ∧ c.AssignsVars
  | call _ _ es => AllAssignVars es

def AllAssignVars : List Expr → Prop
  | [] => True
  | e :: es => e.AssignsVars ∧ AllAssignVars es
end

end Expr

/-! ## Statements and declarations -/

/-- A part of a statement or of a declaration. -/
inductive Part where
  | span (s : Span)
  | loop (label : Option String)
  | expr (e : Expr)
  /-- a variable of a block -/
  | var (d : VarDecl)
  /-- a variable of the file scope -/
  | fileVar (d : VarDecl)
  /-- a declaration of a function without its body -/
  | prototype (h : FunHeader)
  /-- a definition of a function, before its body -/
  | function (h : FunHeader)

/-- The part that an expression makes, if it is there. -/
def Part.optional (o : Option Expr) : List Part := o.toList.map .expr

def ForInit.parts : ForInit → List Part
  | .nothing => []
  | .decl d => [.var d]
  | .expr e => [.expr e]

mutual
def Stmt.parts : Stmt → List Part
  | .ret s e => [.span s, .expr e]
  | .expr s e => [.span s, .expr e]
  | .ifThen s e yes => .span s :: .expr e :: yes.parts
  | .ifElse s e yes no => .span s :: .expr e :: (yes.parts ++ no.parts)
  | .block s is => .span s :: Item.allParts is
  | .breakLoop s _ => [.span s]
  | .continueLoop s _ => [.span s]
  | .whileLoop s l e body => .span s :: .loop l :: .expr e :: body.parts
  | .doLoop s l body e => .span s :: .loop l :: (body.parts ++ [.expr e])
  | .forLoop s l init e post body =>
      .span s :: .loop l :: (init.parts ++ (Part.optional e ++ (Part.optional post ++ body.parts)))
  | .null s => [.span s]

def Item.parts : Item → List Part
  | .stmt s => s.parts
  | .decl (.var d) => [.var d]
  | .decl (.prototype h) => [.prototype h]
  | .decl (.function h s body) => .function h :: .span s :: Item.allParts body

def Item.allParts : List Item → List Part
  | [] => []
  | i :: is => i.parts ++ Item.allParts is
end

def Decl.parts : Decl → List Part
  | .var d => [.fileVar d]
  | .prototype h => [.prototype h]
  | .function h s body => .function h :: .span s :: Item.allParts body

def Program.parts (p : Program) : List Part := p.decls.flatMap Decl.parts

/-! ## Spans -/

def VarDecl.spans (d : VarDecl) : List Span := d.span :: d.init.toList.flatMap Expr.spans

def FunHeader.spans (h : FunHeader) : List Span := h.span :: h.params.map Param.span

def Part.spans : Part → List Span
  | .span s => [s]
  | .loop _ => []
  | .expr e => e.spans
  | .var d | .fileVar d => d.spans
  | .prototype h | .function h => h.spans

/-! ## Expressions of parts -/

def Part.exprs : Part → List Expr
  | .expr e => [e]
  | .var d | .fileVar d => d.init.toList
  | _ => []

/-- The expressions of a program and all their parts. -/
def Program.exprs (p : Program) : List Expr := (p.parts.flatMap Part.exprs).flatMap Expr.postorder

/-! ## Names -/

def FunHeader.paramNames (h : FunHeader) : List String := h.params.map Param.name

/-- The names that a part declares, those of parameters included. -/
def Part.declared : Part → List String
  | .var d | .fileVar d => [d.name]
  | .prototype h | .function h => h.name :: h.paramNames
  | _ => []

/-- The names without linkage that a part declares. The parameters of a function without a body are
no variables. -/
def Part.unlinked : Part → List String
  | .var d => if d.storage = some .external then [] else [d.name]
  | .function h => h.paramNames
  | _ => []

/-- The names of parameters and of variables without linkage that a part declares. -/
def Part.locals : Part → List String
  | .var d => if d.storage = some .external then [] else [d.name]
  | .prototype h | .function h => h.paramNames
  | _ => []

theorem Part.unlinked_sublist_locals (x : Part) : x.unlinked.Sublist x.locals := by
  cases x with
  | prototype h => exact List.nil_sublist _
  | _ => exact List.Sublist.refl _

theorem Part.locals_subset_declared (x : Part) : x.locals ⊆ x.declared := by
  cases x with
  | var d =>
      intro y hy
      by_cases hs : d.storage = some .external <;> simp_all [locals, declared]
  | prototype h | function h => exact List.subset_cons_self _ _
  | _ => exact List.nil_subset _

def Part.linked : Part → List String
  | .var d => if d.storage = some .external then [d.name] else []
  | .fileVar d => [d.name]
  | .prototype h | .function h => [h.name]
  | _ => []

theorem Part.linked_subset_declared (x : Part) : x.linked ⊆ x.declared := by
  cases x with
  | var d =>
      intro y hy
      by_cases hs : d.storage = some .external <;> simp_all [linked, declared]
  | prototype h | function h =>
      exact List.cons_subset.2 ⟨List.mem_cons_self, List.nil_subset _⟩
  | fileVar d => exact List.Subset.refl _
  | _ => exact List.nil_subset _

/-- A part whose spans have `p`, and whose names with linkage are words. -/
structure Part.Read (p : Span → Prop) (x : Part) : Prop where
  spans : ∀ s ∈ x.spans, p s
  plain : ∀ name ∈ x.linked, Plain name

namespace Part

def AllRead (p : Span → Prop) (parts : List Part) : Prop := ∀ x ∈ parts, x.Read p

variable {p : Span → Prop}

@[simp] theorem allRead_nil : AllRead p [] := by simp [AllRead]

@[simp] theorem allRead_cons {x : Part} {xs : List Part} :
    AllRead p (x :: xs) ↔ x.Read p ∧ AllRead p xs :=
  List.forall_mem_cons

@[simp] theorem allRead_append {xs ys : List Part} :
    AllRead p (xs ++ ys) ↔ AllRead p xs ∧ AllRead p ys :=
  List.forall_mem_append

@[simp] theorem read_span {s : Span} : (span s).Read p ↔ p s :=
  ⟨fun h => h.spans s List.mem_cons_self, fun h => ⟨by simpa [spans] using h, by simp [linked]⟩⟩

@[simp] theorem read_loop {l : Option String} : (loop l).Read p :=
  ⟨by simp [spans], by simp [linked]⟩

@[simp] theorem read_expr {e : Expr} : (expr e).Read p ↔ ∀ s ∈ e.spans, p s :=
  ⟨fun h => h.spans, fun h => ⟨h, by simp [linked]⟩⟩

theorem allRead_optional {o : Option Expr} :
    AllRead p (Part.optional o) ↔ ∀ e ∈ o, ∀ s ∈ e.spans, p s := by
  cases o <;> simp [Part.optional]

theorem forall_mem_varSpans {d : VarDecl} :
    (∀ s ∈ d.spans, p s) ↔ p d.span ∧ AllRead p (Part.optional d.init) := by
  rw [VarDecl.spans, List.forall_mem_cons, allRead_optional]
  cases d.init <;> simp

theorem read_fileVar {d : VarDecl} :
    (fileVar d).Read p ↔ (p d.span ∧ AllRead p (Part.optional d.init)) ∧ Plain d.name :=
  ⟨fun h => ⟨forall_mem_varSpans.1 h.spans, h.plain _ List.mem_cons_self⟩,
    fun h => ⟨forall_mem_varSpans.2 h.1, by simpa [linked] using h.2⟩⟩

/-- At file scope every variable has linkage, in a block only some have. -/
theorem read_var {d : VarDecl} :
    (var d).Read p ↔ (p d.span ∧ AllRead p (Part.optional d.init)) ∧
      (d.storage = some .external → Plain d.name) := by
  have hn : (∀ x ∈ (var d).linked, Plain x) ↔ (d.storage = some .external → Plain d.name) := by
    rw [linked]
    split <;> simp_all
  rw [← forall_mem_varSpans, ← hn]
  exact ⟨fun h => ⟨h.spans, h.plain⟩, fun h => ⟨h.1, h.2⟩⟩

theorem read_prototype {h : FunHeader} :
    (prototype h).Read p ↔ (p h.span ∧ ∀ q ∈ h.params, p q.span) ∧ Plain h.name := by
  have hs : (∀ s ∈ h.spans, p s) ↔ p h.span ∧ ∀ q ∈ h.params, p q.span := by
    simp [FunHeader.spans]
  rw [← hs]
  exact ⟨fun r => ⟨r.spans, r.plain _ List.mem_cons_self⟩,
    fun r => ⟨r.1, by simpa [linked] using r.2⟩⟩

theorem read_function {h : FunHeader} : (function h).Read p ↔ (prototype h).Read p :=
  ⟨fun r => ⟨r.spans, r.plain⟩, fun r => ⟨r.spans, r.plain⟩⟩

end Part

/-! ## Loops -/

def Part.unlabelled : Part → Part
  | .loop _ => .loop none
  | x => x

mutual
/-- The labels of the loops of a statement; functions inside functions do not count. -/
def Stmt.loops : Stmt → List String
  | .whileLoop _ l _ body | .doLoop _ l body _ | .forLoop _ l _ _ _ body => l.toList ++ body.loops
  | .ifThen _ _ yes => yes.loops
  | .ifElse _ _ yes no => yes.loops ++ no.loops
  | .block _ is => Item.allLoops is
  | .ret _ _ | .expr _ _ | .breakLoop _ _ | .continueLoop _ _ | .null _ => []

def Item.loops : Item → List String
  | .stmt s => s.loops
  | .decl _ => []

def Item.allLoops : List Item → List String
  | [] => []
  | i :: is => i.loops ++ Item.allLoops is
end

def Decl.loops : Decl → List String
  | .function _ _ body => Item.allLoops body
  | .var _ | .prototype _ => []

mutual
/-- Every loop of a statement has a label, and every jump in it carries the label of the loop around
it; jumps outside of the loops of the statement carry `loop`. -/
def Stmt.LoopsNamed (loop : Option String) : Stmt → Prop
  | .breakLoop _ l | .continueLoop _ l => l.isSome ∧ l = loop
  | .whileLoop _ l _ body | .doLoop _ l body _ | .forLoop _ l _ _ _ body =>
      l.isSome ∧ body.LoopsNamed l
  | .ifThen _ _ yes => yes.LoopsNamed loop
  | .ifElse _ _ yes no => yes.LoopsNamed loop ∧ no.LoopsNamed loop
  | .block _ is => Item.AllLoopsNamed loop is
  | .ret _ _ | .expr _ _ | .null _ => True

def Item.LoopsNamed (loop : Option String) : Item → Prop
  | .stmt s => s.LoopsNamed loop
  | .decl _ => True

def Item.AllLoopsNamed (loop : Option String) : List Item → Prop
  | [] => True
  | i :: is => i.LoopsNamed loop ∧ Item.AllLoopsNamed loop is
end

/-- The loops and jumps of `s'` carry the labels of those of `s`. -/
def Stmt.SameLoops (s s' : Stmt) : Prop :=
  s'.loops = s.loops ∧ ∀ loop, s.LoopsNamed loop → s'.LoopsNamed loop

def Item.SameLoops (i i' : Item) : Prop :=
  i'.loops = i.loops ∧ ∀ loop, i.LoopsNamed loop → i'.LoopsNamed loop

def Item.AllSameLoops (is is' : List Item) : Prop :=
  Item.allLoops is' = Item.allLoops is ∧
    ∀ loop, Item.AllLoopsNamed loop is → Item.AllLoopsNamed loop is'

namespace Stmt.SameLoops

variable {s s' : Span} {l : Option String} {e e' : Expr} {yes yes' no no' body body' : Stmt}

theorem ifElse (hy : yes.SameLoops yes') (hn : no.SameLoops no') :
    (Stmt.ifElse s e yes no).SameLoops (Stmt.ifElse s' e' yes' no') :=
  ⟨by simp [loops, hy.1, hn.1], fun loop h => ⟨hy.2 loop h.1, hn.2 loop h.2⟩⟩

theorem whileLoop (hb : body.SameLoops body') :
    (Stmt.whileLoop s l e body).SameLoops (Stmt.whileLoop s' l e' body') :=
  ⟨by simp [loops, hb.1], fun _ h => ⟨h.1, hb.2 l h.2⟩⟩

theorem doLoop (hb : body.SameLoops body') :
    (Stmt.doLoop s l body e).SameLoops (Stmt.doLoop s' l body' e') :=
  ⟨by simp [loops, hb.1], fun _ h => ⟨h.1, hb.2 l h.2⟩⟩

theorem forLoop {init init' : ForInit} {o o' post post' : Option Expr} (hb : body.SameLoops body') :
    (Stmt.forLoop s l init o post body).SameLoops (Stmt.forLoop s' l init' o' post' body') :=
  ⟨by simp [loops, hb.1], fun _ h => ⟨h.1, hb.2 l h.2⟩⟩

end Stmt.SameLoops

theorem Item.AllSameLoops.cons {i i' : Item} {is is' : List Item} (hi : i.SameLoops i')
    (his : AllSameLoops is is') : AllSameLoops (i :: is) (i' :: is') :=
  ⟨by simp [allLoops, hi.1, his.1], fun loop h => ⟨hi.2 loop h.1, his.2 loop h.2⟩⟩

/-! ## Expressions that run -/

/-- The initializer of an automatic variable, which is evaluated when its declaration is reached. -/
def VarDecl.running (d : VarDecl) : List Expr :=
  if d.storage = none then d.init.toList else []

/-- The expressions of a part that are evaluated when the program runs. -/
def Part.running : Part → List Expr
  | .expr e => [e]
  | .var d => d.running
  | _ => []

@[simp] theorem Part.flatMap_running_optional (o : Option Expr) :
    (Part.optional o).flatMap Part.running = o.toList := by
  cases o <;> rfl

end IntegerC
