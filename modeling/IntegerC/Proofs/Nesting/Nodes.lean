import IntegerC.Proofs.Grammar.Soundness

set_option autoImplicit false

/-! # Nodes and their tokens

A `Node` is a piece of a tree that carries a span; `Node.children` lists the nodes right below it in
the order of the source. `Over us n` says that the span of `n` reaches from the first to the last of
the tokens `us`, and that each child is over a run of these tokens, one run behind the other. If the
tokens stand in order in the text, then so do the spans: `Over.placed`.
-/

namespace IntegerC

/-! ## Nodes -/

def Stmt.span : Stmt → Span
  | .ret s _ | .expr s _ | .ifThen s _ _ | .ifElse s _ _ _ | .block s _ | .breakLoop s _
  | .continueLoop s _ | .whileLoop s _ _ _ | .doLoop s _ _ _ | .forLoop s _ _ _ _ _ | .null s => s

def Stmt.form : Stmt → String
  | .ret _ _ => "Return"
  | .expr _ _ => "ExprStmt"
  | .ifThen _ _ _ | .ifElse _ _ _ _ => "If"
  | .block _ _ => "Compound"
  | .breakLoop _ _ => "Break"
  | .continueLoop _ _ => "Continue"
  | .whileLoop _ _ _ _ => "While"
  | .doLoop _ _ _ _ => "DoWhile"
  | .forLoop _ _ _ _ _ _ => "For"
  | .null _ => "Null"

/-- The operands of an expression, from left to right. -/
def Expr.operands : Expr → List Expr
  | .constant _ _ | .var _ _ => []
  | .cast _ _ a | .unary _ _ a => [a]
  | .binary _ _ a b | .assignment _ a b => [a, b]
  | .conditional _ a b c => [a, b, c]
  | .call _ _ es => es

/-- A piece of a tree with a span of its own. A variable of the file scope is told apart from one of
a block. -/
inductive Node where
  | expr (e : Expr)
  | var (d : VarDecl)
  | fileVar (d : VarDecl)
  | param (q : Param)
  | prototype (h : FunHeader)
  | function (h : FunHeader) (bodySpan : Span) (body : List Item)
  | block (span : Span) (items : List Item)
  | stmt (s : Stmt)
  | program (p : Program)

def ForInit.nodes : ForInit → List Node
  | .nothing => []
  | .decl d => [.var d]
  | .expr e => [.expr e]

def Item.node : Item → Node
  | .stmt s => .stmt s
  | .decl (.var d) => .var d
  | .decl (.prototype h) => .prototype h
  | .decl (.function h s body) => .function h s body

def Decl.node : Decl → Node
  | .var d => .fileVar d
  | .prototype h => .prototype h
  | .function h s body => .function h s body

def Expr.optionNodes (o : Option Expr) : List Node := o.toList.map .expr

namespace Node

def span : Node → Span
  | expr e => e.span
  | var d | fileVar d => d.span
  | param q => q.span
  | prototype h | function h _ _ => h.span
  | block s _ => s
  | stmt s => s.span
  | program p => p.span

def form : Node → String
  | expr e => e.form
  | var _ | fileVar _ => "VarDecl"
  | param _ => "Param"
  | prototype _ | function _ _ _ => "FunctionDecl"
  | block _ _ => "Block"
  | stmt s => s.form
  | program _ => "Program"

/-- The nodes right below a statement. A compound statement has its block below it. -/
def ofStmt : Stmt → List Node
  | .ret _ e | .expr _ e => [expr e]
  | .ifThen _ c yes => [expr c, stmt yes]
  | .ifElse _ c yes no => [expr c, stmt yes, stmt no]
  | .block s is => [block s is]
  | .breakLoop _ _ | .continueLoop _ _ | .null _ => []
  | .whileLoop _ _ c body => [expr c, stmt body]
  | .doLoop _ _ body c => [stmt body, expr c]
  | .forLoop _ _ init c post body =>
      init.nodes ++ (Expr.optionNodes c ++ (Expr.optionNodes post ++ [stmt body]))

/-- The nodes right below a node, in the order of the source. -/
def children : Node → List Node
  | expr e => e.operands.map expr
  | var d | fileVar d => Expr.optionNodes d.init
  | param _ => []
  | prototype h => h.params.map param
  | function h s body => h.params.map param ++ [block s body]
  | block _ is => is.map Item.node
  | stmt s => ofStmt s
  | program p => p.decls.map Decl.node

/-- The second node is the first one or stands somewhere below it. -/
inductive Contains : Node → Node → Prop
  | refl (n : Node) : Contains n n
  | under {n k x : Node} (hk : k ∈ n.children) (hx : Contains k x) : Contains n x

end Node

/-! ## Spans in order -/

namespace Span

def Within (s t : Span) : Prop :=
  t.start.offset ≤ s.start.offset ∧ s.stop.offset ≤ t.stop.offset

/-- The first piece begins before the second one and does not reach into it. -/
def Before (s t : Span) : Prop :=
  s.start.offset < t.start.offset ∧ s.stop.offset ≤ t.start.offset

end Span

/-- The span of the node runs forwards from the start of a token to the end of a token; inside it
lie the spans of the children, one behind the other. -/
structure Node.Placed (ts : List Token) (n : Node) : Prop where
  starts : ∃ t ∈ ts, n.span.start = t.span.start
  stops : ∃ t ∈ ts, n.span.stop = t.span.stop
  forwards : n.span.start.offset ≤ n.span.stop.offset
  inside : ∀ k ∈ n.children, k.span.Within n.span
  apart : n.children.Pairwise fun k k' => k.span.Before k'.span

/-! ## Runs of tokens -/

/-- The piece of the source from the first to the last of the tokens. -/
def hull (us : List Token) : Span where
  start := (us.head?.getD (.endAt .origin)).span.start
  stop := (us.getLast?.getD (.endAt .origin)).span.stop

theorem exists_start_hull {us : List Token} (h : us ≠ []) :
    ∃ t ∈ us, (hull us).start = t.span.start := by
  cases us with
  | nil => exact absurd rfl h
  | cons t us => exact ⟨t, List.mem_cons_self, rfl⟩

theorem stop_hull_concat (us : List Token) (t : Token) : (hull (us ++ [t])).stop = t.span.stop := by
  simp [hull]

theorem stop_hull_append (us : List Token) {vs : List Token} (h : vs ≠ []) :
    (hull (us ++ vs)).stop = (hull vs).stop := by
  cases hlast : vs.getLast? with
  | none => exact absurd (List.getLast?_eq_none_iff.1 hlast) h
  | some t => simp [hull, hlast]

theorem exists_stop_hull {us : List Token} (h : us ≠ []) :
    ∃ t ∈ us, (hull us).stop = t.span.stop := by
  rcases List.eq_nil_or_concat us with rfl | ⟨vs, t, rfl⟩
  · exact absurd rfl h
  · rw [List.concat_eq_append]
    exact ⟨t, by simp, stop_hull_concat vs t⟩

/-- Tokens with their ends in order, one behind the other. -/
structure InOrder (ts : List Token) : Prop where
  forwards : ∀ t ∈ ts, t.span.start.offset ≤ t.span.stop.offset
  apart : ts.Pairwise fun t u => t.span.stop.offset ≤ u.span.start.offset

namespace InOrder

variable {us ts : List Token}

theorem sublist (h : InOrder ts) (hs : us.Sublist ts) : InOrder us :=
  ⟨fun t ht => h.forwards t (hs.subset ht), h.apart.sublist hs⟩

/-- No token begins before the hull of all of them. -/
theorem start_hull_le (h : InOrder ts) {t : Token} (ht : t ∈ ts) :
    (hull ts).start.offset ≤ t.span.start.offset := by
  cases ts with
  | nil => cases ht
  | cons u ts =>
      show u.span.start.offset ≤ t.span.start.offset
      rcases List.mem_cons.1 ht with rfl | ht
      · exact Nat.le_refl _
      · exact Nat.le_trans (h.forwards u List.mem_cons_self)
          ((List.pairwise_cons.1 h.apart).1 t ht)

/-- The hull of tokens reaches to the end of each of them. -/
theorem le_stop_hull (h : InOrder ts) {t : Token} (ht : t ∈ ts) :
    t.span.stop.offset ≤ (hull ts).stop.offset := by
  rcases List.eq_nil_or_concat ts with rfl | ⟨us, u, rfl⟩
  · cases ht
  · rw [List.concat_eq_append] at h ht ⊢
    rw [stop_hull_concat]
    rcases List.mem_append.1 ht with ht | ht
    · have hu : u ∈ us ++ [u] := by simp
      refine Nat.le_trans ?_ (h.forwards u hu)
      exact (List.pairwise_append.1 h.apart).2.2 t ht u (List.mem_singleton_self u)
    · obtain rfl := List.mem_singleton.1 ht
      exact Nat.le_refl _

end InOrder

/-! ## Nodes over tokens -/

/-- The nodes have runs of the tokens, related by `R`, one run behind the other. -/
inductive Laid (R : List Token → Node → Prop) : List Token → List Node → Prop
  | nil {us : List Token} : Laid R us []
  | cons {gap us vs : List Token} {n : Node} {ns : List Node} (h : R us n) (hns : Laid R vs ns) :
      Laid R (gap ++ (us ++ vs)) (n :: ns)

/-- An expression is read from the tokens once the parentheses are put back that stand open in front
of its leftmost operand. -/
def Node.ReadFrom (us : List Token) : Node → Prop
  | .expr e => ∃ opened : List Token, (∀ t ∈ opened, t.kind = .punct .leftParen) ∧
      e.Derives true 0 ((opened ++ us).map Token.lexeme)
  | _ => True

/-- The span of the node is that of the tokens, among which those of its children lie one run behind
the other. -/
inductive Over : List Token → Node → Prop
  | mk {us : List Token} {n : Node} (hne : us ≠ []) (hspan : n.span = hull us)
      (hread : n.ReadFrom us) (h : Laid Over us n.children) : Over us n

namespace Laid

variable {R : List Token → Node → Prop} {us vs : List Token} {ns ms : List Node}

theorem front (gap : List Token) (h : Laid R us ns) : Laid R (gap ++ us) ns := by
  cases h with
  | nil => exact .nil
  | @cons gap' us vs n ns h hns =>
      rw [← List.append_assoc]
      exact .cons h hns

theorem append (h : Laid R us ns) (h' : Laid R vs ms) : Laid R (us ++ vs) (ns ++ ms) := by
  induction h with
  | nil => exact h'.front _
  | cons h _ ih =>
      rw [List.append_assoc, List.append_assoc]
      exact .cons h ih

theorem behind (gap : List Token) (h : Laid R us ns) : Laid R (us ++ gap) ns := by
  have hgap := h.append (.nil : Laid R gap [])
  rwa [List.append_nil] at hgap

theorem single {n : Node} (h : R us n) : Laid R us [n] := by
  have hn : Laid R ([] ++ (us ++ [])) [n] := .cons h .nil
  rwa [List.nil_append, List.append_nil] at hn

theorem token (t : Token) (h : Laid R us ns) : Laid R (t :: us) ns := h.front [t]

/-- Each of the nodes lies over a stretch of the tokens. -/
theorem exists_of_mem (h : Laid R us ns) {n : Node} (hn : n ∈ ns) : ∃ vs, vs <:+: us ∧ R vs n := by
  induction h with
  | nil => cases hn
  | @cons gap us vs m ns h _ ih =>
      rcases List.mem_cons.1 hn with rfl | hn
      · exact ⟨us, ⟨gap, vs, by simp⟩, h⟩
      · obtain ⟨ws, hws, hR⟩ := ih hn
        exact ⟨ws, hws.trans ⟨gap ++ us, [], by simp⟩, hR⟩

end Laid

namespace Over

variable {us vs ts : List Token} {n k : Node}

theorem ne_nil (h : Over us n) : us ≠ [] := by
  cases h with
  | mk hne _ _ _ => exact hne

theorem span_eq (h : Over us n) : n.span = hull us := by
  cases h with
  | mk _ hspan _ _ => exact hspan

/-- Each node of a tree is over tokens among those of the tree. -/
theorem exists_of_contains (h : Over us n) (hk : n.Contains k) : ∃ vs, vs <:+: us ∧ Over vs k := by
  induction hk generalizing us with
  | refl => exact ⟨us, List.infix_refl us, h⟩
  | under hmem _ ih =>
      cases h with
      | mk _ _ _ hlaid =>
          obtain ⟨vs, hvs, hover⟩ := hlaid.exists_of_mem hmem
          obtain ⟨ws, hws, hover⟩ := ih hover
          exact ⟨ws, hws.trans hvs, hover⟩

theorem start_lt_stop (h : Over us n) (ho : InOrder us)
    (hfilled : ∀ t ∈ us, t.span.start.offset < t.span.stop.offset) :
    n.span.start.offset < n.span.stop.offset := by
  obtain ⟨t, ht, hstart⟩ := exists_start_hull h.ne_nil
  rw [h.span_eq, hstart]
  exact Nat.lt_of_lt_of_le (hfilled t ht) (ho.le_stop_hull ht)

end Over

/-- Nodes over tokens that are in order and not empty have spans in order. -/
theorem Laid.pairwise {us : List Token} {ns : List Node} (h : Laid Over us ns) (ho : InOrder us)
    (hfilled : ∀ t ∈ us, t.span.start.offset < t.span.stop.offset) :
    ns.Pairwise fun k k' => k.span.Before k'.span := by
  induction h with
  | nil => exact .nil
  | @cons gap us vs n ns hn hns ih =>
      have hsub : (us ++ vs).Sublist (gap ++ (us ++ vs)) := List.sublist_append_right _ _
      have hus : us.Sublist (us ++ vs) := List.sublist_append_left _ _
      have hvs : vs.Sublist (us ++ vs) := List.sublist_append_right _ _
      refine List.pairwise_cons.2 ⟨fun n' hn' => ?_, ih (ho.sublist (hvs.trans hsub))
        fun t ht => hfilled t ((hvs.trans hsub).subset ht)⟩
      obtain ⟨ws, hws, hover⟩ := hns.exists_of_mem hn'
      obtain ⟨t, ht, hstop⟩ := exists_stop_hull hn.ne_nil
      obtain ⟨t', ht', hstart⟩ := exists_start_hull hover.ne_nil
      have happart := (List.pairwise_append.1 (ho.sublist hsub).apart).2.2 t ht t'
        (hws.subset ht')
      have hlt := hn.start_lt_stop (ho.sublist (hus.trans hsub))
        fun t ht => hfilled t ((hus.trans hsub).subset ht)
      rw [hn.span_eq] at hlt
      rw [Span.Before, hn.span_eq, hover.span_eq, hstart, hstop] at *
      omega

/-- A node with the span of some tokens in order, with its children among those that are not
empty. -/
theorem Node.placed {ts us ws : List Token} {n : Node} (ho : InOrder ts) (hws : ws.Sublist ts)
    (hne : ws ≠ []) (hspan : n.span = hull ws) (hus : us.Sublist ws)
    (hfilled : ∀ t ∈ us, t.span.start.offset < t.span.stop.offset)
    (h : Laid Over us n.children) : n.Placed ts := by
  have how := ho.sublist hws
  obtain ⟨t, ht, hstart⟩ := exists_start_hull hne
  obtain ⟨u, hu, hstop⟩ := exists_stop_hull hne
  refine ⟨⟨t, hws.subset ht, by rw [hspan, hstart]⟩, ⟨u, hws.subset hu, by rw [hspan, hstop]⟩, ?_,
    fun k hk => ?_, h.pairwise (how.sublist hus) hfilled⟩
  · rw [hspan, hstart]
    exact Nat.le_trans (how.forwards t ht) (how.le_stop_hull ht)
  · obtain ⟨vs, hvs, hover⟩ := h.exists_of_mem hk
    obtain ⟨t, ht, hstart⟩ := exists_start_hull hover.ne_nil
    obtain ⟨u, hu, hstop⟩ := exists_stop_hull hover.ne_nil
    rw [Span.Within, hspan, hover.span_eq, hstart, hstop]
    exact ⟨how.start_hull_le (hus.subset (hvs.subset ht)),
      how.le_stop_hull (hus.subset (hvs.subset hu))⟩

theorem Over.placed {ts us : List Token} {n : Node} (h : Over us n) (ho : InOrder ts)
    (hus : us.Sublist ts) (hfilled : ∀ t ∈ us, t.span.start.offset < t.span.stop.offset) :
    n.Placed ts := by
  cases h with
  | mk hne hspan _ hlaid => exact n.placed ho hus hne hspan (.refl us) hfilled hlaid

end IntegerC
