import IntegerC.Proofs.ElaboratedChecking
import IntegerC.Proofs.Nesting.Parsing
import IntegerC.Proofs.Placing

set_option autoImplicit false

/-! # Spans nest, and passes keep them

In the tree of a text every span runs from the start of a token to the end of one, inside the span
of the node above it and behind those of the nodes to its left. Resolving names, labelling loops and
checking types then leave every node its span (`Node.Keeps`): what they change is written elsewhere
in a node, except that checking puts casts around expressions, each with the span of its operand,
and replaces the initializer of a static object by a constant with the same span.
-/

namespace IntegerC

open Text

/-! ## Nodes behind a pass -/

/-- The second node is the first one behind a pass: it is the same, or it has the same form and span,
and the children are the same ones behind the pass. Where `checks` holds, the pass also puts casts
around expressions and replaces initializers of static objects by their values. -/
inductive Node.Keeps (checks : Bool) : Node → Node → Prop
  | refl (n : Node) : Keeps checks n n
  | same {n n' : Node} (hform : n'.form = n.form) (hspan : n'.span = n.span)
      (h : List.Forall₂ (Keeps checks) n.children n'.children) : Keeps checks n n'
  | cast {n : Node} {e : Expr} {t : IntType} (hc : checks = true) (h : Keeps checks n (.expr e)) :
      Keeps checks n (.expr (.cast ⟨e.span, some t⟩ t e))
  | static {d d' : VarDecl} (hc : checks = true) (hs : d.storage = some .static)
      (hd : d.Folds d') : Keeps checks (.var d) (.var d')
  | fileVar {d d' : VarDecl} (hc : checks = true) (hd : d.Folds d') :
      Keeps checks (.fileVar d) (.fileVar d')

/-! ## Names -/

section

variable (f : String → String)

mutual
/-- Renaming keeps every node with its span. -/
theorem Expr.keeps_mapNames :
    (e : Expr) → (Node.expr (e.mapNames f)).Keeps false (.expr e)
  | .constant _ _ | .var _ _ => .same rfl rfl .nil
  | .cast _ _ a | .unary _ _ a => .same rfl rfl (.cons a.keeps_mapNames .nil)
  | .binary _ _ a b | .assignment _ a b =>
      .same rfl rfl (.cons a.keeps_mapNames (.cons b.keeps_mapNames .nil))
  | .conditional _ a b c => .same rfl rfl
      (.cons a.keeps_mapNames (.cons b.keeps_mapNames (.cons c.keeps_mapNames .nil)))
  | .call _ _ es => .same rfl rfl (Expr.keep_mapAllNames es)
termination_by structural e => e

theorem Expr.keep_mapAllNames : (es : List Expr) → List.Forall₂ (Node.Keeps false)
    ((Expr.mapAllNames f es).map .expr) (es.map .expr)
  | [] => .nil
  | e :: es => .cons e.keeps_mapNames (Expr.keep_mapAllNames es)
termination_by structural es => es
end

theorem Expr.keep_optionNodes (o : Option Expr) : List.Forall₂ (Node.Keeps false)
    (Expr.optionNodes (o.map (Expr.mapNames f))) (Expr.optionNodes o) := by
  cases o with
  | none => exact .nil
  | some e => exact .cons (e.keeps_mapNames f) .nil

theorem FunHeader.keep_params (h : FunHeader) : List.Forall₂ (Node.Keeps false)
    ((h.mapNames f).params.map .param) (h.params.map .param) := by
  show List.Forall₂ _ ((h.params.map (Param.mapName f)).map Node.param) _
  induction h.params with
  | nil => exact .nil
  | cons q qs ih => exact .cons (.same rfl rfl .nil) ih

theorem ForInit.keep_nodes (i : ForInit) :
    List.Forall₂ (Node.Keeps false) (i.mapNames f).nodes i.nodes := by
  cases i with
  | nothing => exact .nil
  | decl d => exact .cons (.same rfl rfl (Expr.keep_optionNodes f d.init)) .nil
  | expr e => exact .cons (e.keeps_mapNames f) .nil

mutual
/-- Renaming changes no form and no span. -/
theorem Stmt.keeps_mapNames :
    (s : Stmt) → (Node.stmt (s.mapNames f)).Keeps false (.stmt s)
  | .ret _ e | .expr _ e => .same rfl rfl (.cons (e.keeps_mapNames f) .nil)
  | .ifThen _ e yes =>
      .same rfl rfl (.cons (e.keeps_mapNames f) (.cons yes.keeps_mapNames .nil))
  | .ifElse _ e yes no => .same rfl rfl
      (.cons (e.keeps_mapNames f) (.cons yes.keeps_mapNames (.cons no.keeps_mapNames .nil)))
  | .block _ is => .same rfl rfl (.cons (.same rfl rfl (Item.keep_mapAllNames is)) .nil)
  | .breakLoop _ _ | .continueLoop _ _ | .null _ => .same rfl rfl .nil
  | .whileLoop _ _ e body =>
      .same rfl rfl (.cons (e.keeps_mapNames f) (.cons body.keeps_mapNames .nil))
  | .doLoop _ _ body e =>
      .same rfl rfl (.cons body.keeps_mapNames (.cons (e.keeps_mapNames f) .nil))
  | .forLoop _ _ init e post body => .same rfl rfl
      (List.rel_append (init.keep_nodes f) (List.rel_append (Expr.keep_optionNodes f e)
        (List.rel_append (Expr.keep_optionNodes f post) (.cons body.keeps_mapNames .nil))))
termination_by structural s => s

theorem Item.keeps_mapNames : (i : Item) → (i.mapNames f).node.Keeps false i.node
  | .stmt s => s.keeps_mapNames
  | .decl (.var d) => .same rfl rfl (Expr.keep_optionNodes f d.init)
  | .decl (.prototype h) => .same rfl rfl (h.keep_params f)
  | .decl (.function h _ body) => .same rfl rfl
      (List.rel_append (h.keep_params f) (.cons (.same rfl rfl (Item.keep_mapAllNames body)) .nil))
termination_by structural i => i

theorem Item.keep_mapAllNames : (is : List Item) → List.Forall₂ (Node.Keeps false)
    ((Item.mapAllNames f is).map Item.node) (is.map Item.node)
  | [] => .nil
  | i :: is => .cons i.keeps_mapNames (Item.keep_mapAllNames is)
termination_by structural is => is
end

theorem Decl.keeps_mapNames (d : Decl) : (d.mapNames f).node.Keeps false d.node := by
  cases d with
  | var d => exact .same rfl rfl (Expr.keep_optionNodes f d.init)
  | prototype h => exact (Item.decl (.prototype h)).keeps_mapNames f
  | function h s body => exact (Item.decl (.function h s body)).keeps_mapNames f

theorem Program.keeps_mapNames (p : Program) :
    (Node.program (p.mapNames f)).Keeps false (.program p) := by
  refine .same rfl rfl ?_
  show List.Forall₂ _ ((p.decls.map (Decl.mapNames f)).map Decl.node) (p.decls.map Decl.node)
  induction p.decls with
  | nil => exact .nil
  | cons d ds ih => exact .cons (d.keeps_mapNames f) ih

end

/-! ## Labels -/

theorem forall₂_keeps_refl (checks : Bool) (ns : List Node) :
    List.Forall₂ (Node.Keeps checks) ns ns :=
  List.forall₂_same.2 fun n _ => .refl n

namespace LoopNamer

mutual
/-- Labelling changes no form and no span. -/
theorem stmt_keeps : (s : Stmt) → ∀ (loop : Option String) (n : Nat),
    Answers ((stmt loop s).run n) (fun o => (Node.stmt s).Keeps false (.stmt o.1))
  | .breakLoop _ _, some _, _ | .continueLoop _ _, some _, _ => .run_pure (.same rfl rfl .nil)
  | .breakLoop _ _, none, _ | .continueLoop _ _, none, _ => .run_throw trivial
  | .whileLoop s l e body, loop, n => by
      rw [stmt]
      refine Ensures.run_bind (q := fun _ => True) trivial fun label n₁ _ => ?_
      refine (stmt_keeps body _ n₁).run_bind fun body' n₂ hbody => .run_pure ?_
      exact .same rfl rfl (.cons (.refl _) (.cons hbody .nil))
  | .doLoop s l body e, loop, n => by
      rw [stmt]
      refine Ensures.run_bind (q := fun _ => True) trivial fun label n₁ _ => ?_
      refine (stmt_keeps body _ n₁).run_bind fun body' n₂ hbody => .run_pure ?_
      exact .same rfl rfl (.cons hbody (.cons (.refl _) .nil))
  | .forLoop s l init e post body, loop, n => by
      rw [stmt]
      refine Ensures.run_bind (q := fun _ => True) trivial fun label n₁ _ => ?_
      refine (stmt_keeps body _ n₁).run_bind fun body' n₂ hbody => .run_pure (.same rfl rfl ?_)
      exact List.rel_append (forall₂_keeps_refl _ _) (List.rel_append (forall₂_keeps_refl _ _)
        (List.rel_append (forall₂_keeps_refl _ _) (.cons hbody .nil)))
  | .ifThen s e yes, loop, n => by
      rw [stmt]
      refine (stmt_keeps yes loop n).run_bind fun yes' n₁ hyes => .run_pure ?_
      exact .same rfl rfl (.cons (.refl _) (.cons hyes .nil))
  | .ifElse s e yes no, loop, n => by
      rw [stmt]
      refine (stmt_keeps yes loop n).run_bind fun yes' n₁ hyes => ?_
      refine (stmt_keeps no loop n₁).run_bind fun no' n₂ hno => .run_pure ?_
      exact .same rfl rfl (.cons (.refl _) (.cons hyes (.cons hno .nil)))
  | .block s is, loop, n => by
      rw [stmt]
      refine (items_keep is loop n).run_bind fun is' n₁ his => .run_pure ?_
      exact .same rfl rfl (.cons (.same rfl rfl his) .nil)
  | .ret _ _, _, _ | .expr _ _, _, _ | .null _, _, _ => .run_pure (.refl _)
termination_by structural s => s

theorem item_keeps : (i : Item) → ∀ (loop : Option String) (n : Nat),
    Answers ((item loop i).run n) (fun o => i.node.Keeps false o.1.node)
  | .stmt s, loop, n => by
      rw [item]
      exact (stmt_keeps s loop n).run_bind fun s' n₁ hs => .run_pure hs
  | .decl _, _, _ => .run_pure (.refl _)
termination_by structural i => i

theorem items_keep : (is : List Item) → ∀ (loop : Option String) (n : Nat),
    Answers ((items loop is).run n) (fun o =>
      List.Forall₂ (Node.Keeps false) (is.map Item.node) (o.1.map Item.node))
  | [], _, _ => .run_pure .nil
  | i :: is, loop, n => by
      rw [items]
      refine (item_keeps i loop n).run_bind fun i' n₁ hi => ?_
      exact (items_keep is loop n₁).run_bind fun is' n₂ his => .run_pure (.cons hi his)
termination_by structural is => is
end

theorem decls_keep (ds : List Decl) : ∀ n : Nat, Answers ((decls ds).run n) (fun o =>
    List.Forall₂ (Node.Keeps false) (ds.map Decl.node) (o.1.map Decl.node)) := by
  induction ds with
  | nil => exact fun _ => .run_pure .nil
  | cons d ds ih =>
      intro n
      cases d with
      | var _ | prototype _ =>
          exact (ih n).run_bind fun ds' n₁ hds => .run_pure (.cons (.refl _) hds)
      | function f s body =>
          rw [decls]
          refine (items_keep body none n).run_bind fun body' n₁ hbody => ?_
          refine (ih n₁).run_bind fun ds' n₂ hds => .run_pure (.cons ?_ hds)
          exact .same rfl rfl (List.rel_append (forall₂_keeps_refl _ _)
            (.cons (.same rfl rfl hbody) .nil))

end LoopNamer

theorem Program.nameLoops_keeps (p : Program) :
    Answers p.nameLoops (fun l => (Node.program p).Keeps false (.program l)) := by
  refine Ensures.bind (q := fun ds : List Decl => List.Forall₂ (Node.Keeps false)
    (p.decls.map Decl.node) (ds.map Decl.node)) ?_ fun ds hds => .pure (.same rfl rfl hds)
  exact Ensures.map (LoopNamer.decls_keep p.decls 0)

/-! ## Types -/

section

variable {t : SymbolTable} {result : IntType}

theorem Expr.Converted.keeps {n : Node} {e e' : Expr} {σ τ : IntType} (h : e.Converted σ τ e')
    (hn : n.Keeps true (.expr e)) : n.Keeps true (.expr e') := by
  cases h with
  | same => exact hn
  | cast => exact .cast rfl hn

mutual
/-- Checking adds types and casts, where a cast takes the span of its operand. -/
theorem Expr.Elaborates.keeps : {e e' : Expr} → {τ : IntType} → e.Elaborates t e' τ →
    (Node.expr e).Keeps true (.expr e')
  | _, _, _, .constant | _, _, _, .var _ => .same rfl rfl .nil
  | _, _, _, .cast ha | _, _, _, .unary _ ha | _, _, _, .not ha =>
      .same rfl rfl (.cons ha.keeps .nil)
  | _, _, _, .arith ha hb ha' hb' | _, _, _, .compare ha hb ha' hb' =>
      .same rfl rfl (.cons (ha'.keeps ha.keeps) (.cons (hb'.keeps hb.keeps) .nil))
  | _, _, _, .shift ha hb | _, _, _, .logic ha hb =>
      .same rfl rfl (.cons ha.keeps (.cons hb.keeps .nil))
  | _, _, _, .assignment _ ha hb hb' =>
      .same rfl rfl (.cons ha.keeps (.cons (hb'.keeps hb.keeps) .nil))
  | _, _, _, .conditional ha hb hc hb' hc' => .same rfl rfl
      (.cons ha.keeps (.cons (hb'.keeps hb.keeps) (.cons (hc'.keeps hc.keeps) .nil)))
  | _, _, _, .call _ hes => .same rfl rfl hes.keep
termination_by structural _ _ _ h => h

theorem Expr.AllElaborate.keep : {es es' : List Expr} → {τs : List IntType} →
    AllElaborate t es es' τs →
      List.Forall₂ (Node.Keeps true) (es.map .expr) (es'.map .expr)
  | _, _, _, .nil => .nil
  | _, _, _, .cons he he' hes => .cons (he'.keeps he.keeps) hes.keep
termination_by structural _ _ _ h => h
end

theorem Expr.ElaboratesTyped.keeps {e e' : Expr} (h : e.ElaboratesTyped t e') :
    (Node.expr e).Keeps true (.expr e') := by
  obtain ⟨τ, h⟩ := h
  exact h.keeps

theorem Expr.ElaboratesAs.keeps {e e' : Expr} {τ : IntType} (h : e.ElaboratesAs t τ e') :
    (Node.expr e).Keeps true (.expr e') := by
  obtain ⟨a, σ, ha, ha'⟩ := h
  exact ha'.keeps ha.keeps

theorem Expr.OptionElaborates.keep {o o' : Option Expr} (h : OptionElaborates t o o') :
    List.Forall₂ (Node.Keeps true) (Expr.optionNodes o) (Expr.optionNodes o') := by
  cases h with
  | none => exact .nil
  | some h => exact .cons h.keeps .nil

/-- Elaboration keeps the span of a declaration and the nodes of its initializer, up to casts and
folding. -/
theorem VarDecl.Elaborates.keeps {d d' : VarDecl} (h : d.Elaborates t d') :
    (Node.var d).Keeps true (.var d') := by
  cases h with
  | external _ _ | automatic _ _ => exact .refl _
  | static hs hd => exact .static rfl hs hd
  | initialized _ hi he =>
      refine .same rfl rfl ?_
      show List.Forall₂ _ (Expr.optionNodes d.init) _
      rw [hi]
      exact .cons he.keeps .nil

theorem ForInit.Elaborates.keep {i i' : ForInit} (h : i.Elaborates t i') :
    List.Forall₂ (Node.Keeps true) i.nodes i'.nodes := by
  cases h with
  | nothing => exact .nil
  | decl h => exact .cons h.2.keeps .nil
  | expr h => exact .cons h.keeps .nil

mutual
/-- The same for statements, of which checking only changes the expressions. -/
theorem Stmt.Elaborates.keeps : {s s' : Stmt} → s.Elaborates t result s' →
    (Node.stmt s).Keeps true (.stmt s')
  | _, _, .ret he => .same rfl rfl (.cons he.keeps .nil)
  | _, _, .expr he => .same rfl rfl (.cons he.keeps .nil)
  | _, _, .ifThen he hyes => .same rfl rfl (.cons he.keeps (.cons hyes.keeps .nil))
  | _, _, .ifElse he hyes hno =>
      .same rfl rfl (.cons he.keeps (.cons hyes.keeps (.cons hno.keeps .nil)))
  | _, _, .block his => .same rfl rfl (.cons (.same rfl rfl his.keep) .nil)
  | _, _, .whileLoop he hbody => .same rfl rfl (.cons he.keeps (.cons hbody.keeps .nil))
  | _, _, .doLoop hbody he => .same rfl rfl (.cons hbody.keeps (.cons he.keeps .nil))
  | _, _, .forLoop hinit he hpost hbody => .same rfl rfl
      (List.rel_append hinit.keep (List.rel_append he.keep
        (List.rel_append hpost.keep (.cons hbody.keeps .nil))))
  | _, _, .breakLoop | _, _, .continueLoop | _, _, .null => .refl _
termination_by structural _ _ h => h

theorem Item.Elaborates.keeps : {i i' : Item} → i.Elaborates t result i' →
    i.node.Keeps true i'.node
  | _, _, .stmt h => h.keeps
  | _, _, .var h => h.2.keeps
  | _, _, .prototype _ => .refl _
termination_by structural _ _ h => h

theorem Item.AllElaborate.keep : {is is' : List Item} → Item.AllElaborate t result is is' →
    List.Forall₂ (Node.Keeps true) (is.map Item.node) (is'.map Item.node)
  | _, _, .nil => .nil
  | _, _, .cons hi his => .cons hi.keeps his.keep
termination_by structural _ _ h => h
end

theorem Decl.Elaborates.keeps {d d' : Decl} (h : d.Elaborates t d') :
    d.node.Keeps true d'.node := by
  cases h with
  | var _ hd => exact .fileVar rfl hd
  | prototype _ => exact .refl _
  | function _ _ hbody =>
      exact .same rfl rfl (List.rel_append (forall₂_keeps_refl _ _)
        (.cons (.same rfl rfl hbody.keep) .nil))

theorem Program.Elaborates.keeps {p q : Program} (h : p.Elaborates t q) :
    (Node.program p).Keeps true (.program q) := by
  refine .same rfl h.1 (List.forall₂_map_left_iff.2 (List.forall₂_map_right_iff.2 ?_))
  exact h.2.imp fun _ _ hd => hd.keeps

end

/-! ## Texts -/

/-- A token that has a text covers at least one unit of it. -/
theorem Token.SliceOf.start_lt_stop {text : List Char} {t : Token} (h : t.SliceOf text)
    (hne : t.text ≠ "") : t.span.start.offset < t.span.stop.offset := by
  obtain ⟨before, behind, -, hstart, hstop⟩ := h
  rw [hstart, hstop, unitsOf_append]
  cases hchars : t.text.toList with
  | nil => exact absurd (String.toList_eq_nil_iff.1 hchars) hne
  | cons c cs =>
      have hpos := units_pos c
      rw [unitsOf_cons]
      omega

/-- The tokens of a text stand in order, and those in front of its end are not empty; the nodes of
its tree are over them. -/
theorem over_of_text {text : String} {ts : List Token} {tree : Program}
    (hts : tokens text = .ok ts) (htree : Program.ofTokens ts = .ok tree) :
    ∃ us last, ts = us ++ [last] ∧
      last = .endAt ((LineMap.ofChars text.toList).position ↑(unitsOf text.toList)) ∧
      InOrder ts ∧ (∀ t ∈ us, t.span.start.offset < t.span.stop.offset) ∧
      tree.span = hull ts ∧ Laid Over us (Node.program tree).children := by
  obtain ⟨-, ⟨us, last, rfl, hends, hne, hlast⟩, hslices, hpairwise⟩ := tiles_of_tokens hts
  have horder : InOrder (us ++ [last]) :=
    ⟨fun t ht => ((tokensInOrder hts).covers t ht).ordered, hpairwise⟩
  have hfilled : ∀ t ∈ us, t.span.start.offset < t.span.stop.offset :=
    fun t ht => (hslices t (List.mem_append_left _ ht)).start_lt_stop (hne t ht)
  obtain ⟨hspan, hlaid⟩ := Program.laid_of_ofTokens hends htree
  exact ⟨us, last, rfl, hlast, horder, hfilled, hspan, hlaid⟩

/-- In the tree of a text every span runs forwards from the start of a token to the end of one, and
those of the nodes below a node lie inside its own, one behind the other; the program ends where the
text does. The passes leave every node its span, and a cast that checking puts around an expression
has the span of the expression. -/
theorem Program.spans_nest {text : String} {ts : List Token} {tree : Program}
    (hts : tokens text = .ok ts) (htree : Program.ofTokens ts = .ok tree) :
    (∀ n, (Node.program tree).Contains n → n.Placed ts) ∧
      tree.span.stop = (LineMap.ofChars text.toList).position ↑(unitsOf text.toList) ∧
      tree.span.stop.offset = unitsOf text.toList ∧
      ∀ r, tree.resolve = .ok r → (Node.program tree).Keeps false (.program r) ∧
        ∀ l, r.nameLoops = .ok l → (Node.program r).Keeps false (.program l) ∧
          ∀ t q t', l.check t = .ok (q, t') → (Node.program l).Keeps true (.program q) := by
  obtain ⟨us, last, rfl, hlast, horder, hfilled, hspan, hlaid⟩ := over_of_text hts htree
  have hus : us.Sublist (us ++ [last]) := List.sublist_append_left us [last]
  have hstop : tree.span.stop =
      (LineMap.ofChars text.toList).position ↑(unitsOf text.toList) := by
    rw [hspan, stop_hull_concat, hlast]
    rfl
  refine ⟨fun n hn => ?_, hstop, ?_, fun r hr => ⟨?_, fun l hl => ⟨?_, fun t q t' hq => ?_⟩⟩⟩
  · cases hn with
    | refl => exact Node.placed horder (.refl _) (by simp) hspan hus hfilled hlaid
    | under hk hx =>
        obtain ⟨vs, hvs, hover⟩ := hlaid.exists_of_mem hk
        obtain ⟨ws, hws, hover⟩ := hover.exists_of_contains hx
        have hsub : ws <:+: us := hws.trans hvs
        exact hover.placed horder (hsub.sublist.trans hus) fun t ht => hfilled t (hsub.subset ht)
  · rw [hstop]
    exact LineMap.offset_position (List.append_nil _).symm
  · have hmap := ((resolve_scoped_of_written (written_of_text hts htree)).ok_of_eq hr).2.2
    rw [← hmap]
    exact r.keeps_mapNames stem
  · exact (nameLoops_keeps r).ok_of_eq hl
  · exact (elaboration_of_check hts htree hr (.inr hl) hq).1.keeps

/-- The text of a program with every form of node, with a static object whose initializer is folded
and with conversions. -/
def nestedText : String :=
  "static long s = 1 + 2; long f(int a, unsigned b); int g(int a, long b) \x7b " ++
    "for (int i = 0; i < (a + 1) * 2; i = i + 1) if (i) s = (long) i; else continue; " ++
    "do \x7b ; \x7d while (!a); while (0) break; return f((a), b) ? -a : b; \x7d"

theorem Program.spans_nest_nestedText :
    ∃ ts tree r l q t', tokens nestedText = .ok ts ∧ Program.ofTokens ts = .ok tree ∧
      tree.resolve = .ok r ∧ r.nameLoops = .ok l ∧ l.check [] = .ok (q, t') ∧
      (∀ n, (Node.program tree).Contains n → n.Placed ts) ∧
      tree.span.stop = (LineMap.ofChars nestedText.toList).position ↑(unitsOf nestedText.toList) ∧
      tree.span.stop.offset = unitsOf nestedText.toList ∧
      ∀ r, tree.resolve = .ok r → (Node.program tree).Keeps false (.program r) ∧
        ∀ l, r.nameLoops = .ok l → (Node.program r).Keeps false (.program l) ∧
          ∀ t q t', l.check t = .ok (q, t') → (Node.program l).Keeps true (.program q) := by
  have hchars : nestedText.toList = _ := toList_append_eq
    (toList_append_eq String.toList_ofList String.toList_ofList) String.toList_ofList
  have h : ((tokens nestedText).toOption.bind fun ts =>
      (Program.ofTokens ts).toOption.bind fun tree =>
        tree.resolve.toOption.bind fun r => r.nameLoops.toOption.bind fun l =>
          (l.check []).toOption.bind fun o => some o.2.names) =
      some ["s", "f", "g", "a.2", "b.3", "i.4"] := by
    rw [tokens, hchars]
    decide +kernel
  obtain ⟨ts, hts, h⟩ := toOption_bind_eq_some.1 h
  obtain ⟨tree, htree, h⟩ := toOption_bind_eq_some.1 h
  obtain ⟨r, hr, h⟩ := toOption_bind_eq_some.1 h
  obtain ⟨l, hl, h⟩ := toOption_bind_eq_some.1 h
  obtain ⟨⟨q, t'⟩, hq, -⟩ := toOption_bind_eq_some.1 h
  exact ⟨ts, tree, r, l, q, t', hts, htree, hr, hl, hq, spans_nest hts htree⟩

end IntegerC
