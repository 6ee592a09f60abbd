import IntegerC.Proofs.DeclaredFirst
import IntegerC.Proofs.Elaboration
import IntegerC.Proofs.ScopedResolution

set_option autoImplicit false

/-! # Checking elaborates

Checking a resolved program elaborates it, whatever the table holds before. A name without linkage
may have an entry in that table, but it gets a new one before it is used; names with linkage never
change their types. So what was checked early still follows the rules in the table at the end.
-/

namespace IntegerC

/-! ## Expressions -/

namespace Expr

variable {t u : SymbolTable} {e e' : Expr} {σ τ : IntType}

theorem Elaborates.type_eq (h : Elaborates t e e' τ) : e'.type = some τ := by
  cases h <;> rfl

/-- The conversion of an elaborated operand is a cast exactly where the types differ. -/
theorem Elaborates.converted (h : Elaborates t e e' σ) (τ : IntType) :
    Converted σ τ e' (e'.convert τ) := by
  unfold convert
  split
  · rename_i he
    exact .same (Option.some.inj (h.type_eq.symm.trans he))
  · rename_i he
    exact .cast fun eq => he (eq ▸ h.type_eq)

theorem Elaborates.elaboratesAs (h : Elaborates t e e' σ) (τ : IntType) :
    e.ElaboratesAs t τ (e'.convert τ) :=
  ⟨e', σ, h, h.converted τ⟩

/-- The type of an elaborated expression is at hand. -/
theorem Elaborates.typeOf_ensures {bad : Fault → Prop} (h : Elaborates t e e' τ) :
    Ensures e'.typeOf bad (fun σ => σ = τ) := by
  rw [typeOf, h.type_eq]
  exact .pure rfl

/-- Elaborated operands make an elaborated binary operation, of whatever type the operator gives. -/
theorem Elaborates.typed (n : Note) {a a' b b' : Expr} {ρ : IntType} (op : BinaryOp)
    (ha : Elaborates t a a' σ) (hb : Elaborates t b b' ρ) :
    ∃ τ, Elaborates t (binary n op a b) (op.typed n a' b' σ ρ) τ := by
  cases op with
  | arith _ => exact ⟨_, .arith ha hb (ha.converted _) (hb.converted _)⟩
  | compare _ => exact ⟨_, .compare ha hb (ha.converted _) (hb.converted _)⟩
  | shift _ => exact ⟨_, .shift ha hb⟩
  | logic _ => exact ⟨_, .logic ha hb⟩

/-- Converting each argument to the type of its parameter elaborates the list. -/
theorem AllElaborate.zipWith_convert {es es' : List Expr}
    (h : List.Forall₂ (ElaboratesTyped t) es es') :
    ∀ {τs : List IntType}, τs.length = es'.length →
      AllElaborate t es (List.zipWith convert es' τs) τs := by
  induction h with
  | nil =>
      intro τs hlen
      obtain rfl := List.length_eq_zero_iff.1 hlen
      exact .nil
  | cons he _ ih =>
      intro τs hlen
      cases τs with
      | nil => cases hlen
      | cons τ τs =>
          obtain ⟨σ, he⟩ := he
          exact .cons he (he.converted τ) (ih (by simpa using hlen))

mutual
/-- Checking an expression elaborates it with the table at hand. A name that the table does not have
is a fault, so every name has its type there. -/
theorem check_elaborates (t : SymbolTable) :
    (e : Expr) → e.AssignsVars → Answers (e.check t) (e.ElaboratesTyped t)
  | constant n c, _ => by
      rw [check]
      exact .pure ⟨c.type, .constant⟩
  | var n x, _ => by
      rw [check]
      split
      · exact .error trivial
      · exact .error trivial
      · rename_i τ a hx
        exact .pure ⟨τ, .var (by simp [SymbolTable.typeOf?, hx])⟩
  | cast n target a, hv => by
      rw [check]
      refine (check_elaborates t a hv).bind fun a' ⟨σ, ha⟩ => ?_
      exact ha.typeOf_ensures.bind fun _ _ => .pure ⟨target, .cast ha⟩
  | unary n op a, hv => by
      rw [check]
      refine (check_elaborates t a hv).bind fun a' ⟨σ, ha⟩ => ?_
      refine ha.typeOf_ensures.bind fun _ hσ => .pure ?_
      subst hσ
      by_cases hop : op = .not
      · subst hop
        exact ⟨.int, .not ha⟩
      · rw [if_neg hop]
        exact ⟨_, .unary hop ha⟩
  | binary n op a b, hv => by
      rw [check]
      refine (check_elaborates t a hv.1).bind fun a' ⟨σ, ha⟩ => ?_
      refine (check_elaborates t b hv.2).bind fun b' ⟨ρ, hb⟩ => ?_
      refine ha.typeOf_ensures.bind fun _ hσ => ?_
      refine hb.typeOf_ensures.bind fun _ hρ => .pure ?_
      subst hσ hρ
      exact ha.typed n op hb
  | assignment n a b, hv => by
      rw [check]
      have hassigns : a.AssignsVars := by
        cases a <;> first | trivial | cases hv.1
      have hcheck := check_elaborates t a hassigns
      -- what the target is checked to is named, since it has to be a variable still
      cases e : a.check t with
      | error f => exact .error trivial
      | ok a' =>
          obtain ⟨τ, ha⟩ := hcheck.ok_of_eq e
          refine (check_elaborates t b hv.2).bind fun b' ⟨ρ, hb⟩ => ?_
          refine ha.typeOf_ensures.bind fun _ hτ => .pure ⟨τ, ?_⟩
          subst hτ
          exact .assignment (isVar_of_check hv.1 e) ha hb (hb.converted _)
  | conditional n a b c, hv => by
      rw [check]
      refine (check_elaborates t a hv.1).bind fun a' ⟨σ, ha⟩ => ?_
      refine (check_elaborates t b hv.2.1).bind fun b' ⟨ρ, hb⟩ => ?_
      refine (check_elaborates t c hv.2.2).bind fun c' ⟨ρ', hc⟩ => ?_
      refine ha.typeOf_ensures.bind fun _ _ => ?_
      refine hb.typeOf_ensures.bind fun _ hρ => ?_
      refine hc.typeOf_ensures.bind fun _ hρ' => .pure ?_
      subst hρ hρ'
      exact ⟨_, .conditional ha hb hc (hb.converted _) (hc.converted _)⟩
  | call n f es, hv => by
      rw [check]
      refine (checkAll_elaborates t es hv).bind fun es' hes => ?_
      split
      · exact .error trivial
      · exact .error trivial
      · rename_i params result a hf
        split
        · exact .error trivial
        · rename_i hlen
          have hcallee : t.typeOf? f = some (.function params result) := by
            simp [SymbolTable.typeOf?, hf]
          exact .pure ⟨result, .call hcallee (.zipWith_convert hes (Decidable.not_not.1 hlen))⟩
termination_by structural e => e

/-- Checking a list of operands elaborates each of them in its place. -/
theorem checkAll_elaborates (t : SymbolTable) :
    (es : List Expr) → AllAssignVars es →
      Answers (checkAll t es) (List.Forall₂ (ElaboratesTyped t) es)
  | [], _ => by
      rw [checkAll]
      exact .pure .nil
  | e :: es, hv => by
      rw [checkAll]
      refine (check_elaborates t e hv.1).bind fun e' he => ?_
      exact (checkAll_elaborates t es hv.2).bind fun es' hes => .pure (.cons he hes)
termination_by structural es => es
end

mutual
/-- Only the types of the names in an expression matter. -/
theorem Elaborates.of_names :
    {e e' : Expr} → {τ : IntType} →
      (∀ x ∈ e.names, ∀ τ, t.typeOf? x = some τ → u.typeOf? x = some τ) →
      Elaborates t e e' τ → Elaborates u e e' τ
  | _, _, _, _, .constant => .constant
  | _, _, _, h, .var hx => .var (h _ List.mem_cons_self _ hx)
  | _, _, _, h, .cast ha => .cast (ha.of_names h)
  | _, _, _, h, .unary hop ha => .unary hop (ha.of_names h)
  | _, _, _, h, .not ha => .not (ha.of_names h)
  | _, _, _, h, .arith ha hb ha' hb' =>
      .arith (ha.of_names fun x hx => h x (List.mem_append_left _ hx))
        (hb.of_names fun x hx => h x (List.mem_append_right _ hx)) ha' hb'
  | _, _, _, h, .compare ha hb ha' hb' =>
      .compare (ha.of_names fun x hx => h x (List.mem_append_left _ hx))
        (hb.of_names fun x hx => h x (List.mem_append_right _ hx)) ha' hb'
  | _, _, _, h, .shift ha hb =>
      .shift (ha.of_names fun x hx => h x (List.mem_append_left _ hx))
        (hb.of_names fun x hx => h x (List.mem_append_right _ hx))
  | _, _, _, h, .logic ha hb =>
      .logic (ha.of_names fun x hx => h x (List.mem_append_left _ hx))
        (hb.of_names fun x hx => h x (List.mem_append_right _ hx))
  | _, _, _, h, .assignment hvar ha hb hb' =>
      .assignment hvar (ha.of_names fun x hx => h x (List.mem_append_left _ hx))
        (hb.of_names fun x hx => h x (List.mem_append_right _ hx)) hb'
  | _, _, _, h, .conditional ha hb hc hb' hc' =>
      .conditional
        (ha.of_names fun x hx => h x (List.mem_append_left _ (List.mem_append_left _ hx)))
        (hb.of_names fun x hx => h x (List.mem_append_left _ (List.mem_append_right _ hx)))
        (hc.of_names fun x hx => h x (List.mem_append_right _ hx)) hb' hc'
  | _, _, _, h, .call hf hes =>
      .call (h _ List.mem_cons_self _ hf)
        (hes.of_names fun x hx => h x (List.mem_cons_of_mem _ hx))
termination_by structural _ _ _ _ h => h

/-- Elaboration reads from the table only the types of the names that occur. -/
theorem AllElaborate.of_names :
    {es es' : List Expr} → {τs : List IntType} →
      (∀ x ∈ allNames es, ∀ τ, t.typeOf? x = some τ → u.typeOf? x = some τ) →
      AllElaborate t es es' τs → AllElaborate u es es' τs
  | _, _, _, _, .nil => .nil
  | _, _, _, h, .cons he he' hes =>
      .cons (he.of_names fun x hx => h x (List.mem_append_left _ hx)) he'
        (hes.of_names fun x hx => h x (List.mem_append_right _ hx))
termination_by structural _ _ _ _ h => h
end

end Expr

/-! ## Tables -/

/-- Names keep their types from `t` to `u` unless one of the parts declares them without linkage. -/
def SymbolTable.Keeps (parts : List Part) (t u : SymbolTable) : Prop :=
  ∀ x, x ∉ parts.flatMap Part.unlinked → ∀ τ, t.typeOf? x = some τ → u.typeOf? x = some τ

namespace SymbolTable.Keeps

variable {t u v : SymbolTable} {x : Part} {xs ys : List Part}

theorem of_extends (h : t.Extends u) (xs : List Part) : Keeps xs t u := fun x _ τ => h x τ

theorem refl (xs : List Part) (t : SymbolTable) : Keeps xs t t := of_extends (.refl t) xs

theorem trans (h : Keeps xs t u) (h' : Keeps ys u v) : Keeps (xs ++ ys) t v := by
  intro n hn τ hτ
  rw [List.flatMap_append, List.mem_append, not_or] at hn
  exact h' n hn.2 τ (h n hn.1 τ hτ)

theorem cons (h : Keeps xs t u) : Keeps (x :: xs) t u := (refl [x] t).trans h

/-- A name that a part declares without linkage may get any entry. -/
theorem put {n : String} (hn : n ∈ xs.flatMap Part.unlinked) (s : Symbol) :
    Keeps xs t (t.put n s) := by
  intro n' hn' τ hτ
  have hne : n' ≠ n := fun e => hn' (e ▸ hn)
  rw [typeOf?_put, if_neg hne]
  exact hτ

end SymbolTable.Keeps

/-! ## Statements and declarations -/

namespace Checker

variable {t : SymbolTable} {later : List Part}

/-- What is checked early holds in every later table, because the names in it are not declared
again. -/
theorem expr_elaborates {e : Expr} (h : Arranged (.expr e :: later)) :
    Answers ((expr e).run t)
      (fun o => t = o.2 ∧ ∀ u, t.Keeps later u → e.ElaboratesTyped u o.1) := by
  have hassigns : e.AssignsVars := h.assigns e (by simp [Part.running])
  refine .run_lift_last ((e.check_elaborates t hassigns).imp ?_)
  rintro e' ⟨τ, he⟩
  refine ⟨rfl, fun u hu => ⟨τ, he.of_names fun x hx => hu x (h.notMem ?_)⟩⟩
  simpa [Part.uses, Part.running] using .inl hx

theorem exprAs_elaborates {e : Expr} (τ : IntType) (h : Arranged (.expr e :: later)) :
    Answers ((exprAs τ e).run t)
      (fun o => t = o.2 ∧ ∀ u, t.Keeps later u → e.ElaboratesAs u τ o.1) := by
  refine (expr_elaborates h).run_bind fun e' t' ⟨ht, he⟩ => .run_pure ⟨ht, fun u hu => ?_⟩
  obtain ⟨σ, he⟩ := he u hu
  exact he.elaboratesAs τ

/-- Checking an optional expression leaves the table alone, and what it gives stays an elaboration
while the names keep their types. -/
theorem optionalExpr_elaborates {o : Option Expr} (h : Arranged (Part.optional o ++ later)) :
    Answers ((optionalExpr o).run t)
      (fun r => t = r.2 ∧ ∀ u, t.Keeps later u → Expr.OptionElaborates u o r.1) := by
  cases o with
  | none => exact .run_pure ⟨rfl, fun _ _ => .none⟩
  | some e =>
      refine .run_map ((expr_elaborates h).imp fun r hr => ?_)
      exact ⟨hr.1, fun u hu => .some (hr.2 u hu)⟩

end Checker

/-- The value that is found for the initializer of a static object may stand in its place. -/
theorem VarDecl.staticValue?_folds (d : VarDecl) :
    Answers d.staticValue? (fun value => d.Folds (d.withValue value)) := by
  obtain ⟨s, x, τ, storage, init⟩ := d
  cases init with
  | none => exact .pure (.none rfl)
  | some e =>
      refine .map ?_
      unfold staticValue
      cases hc : e.constant? with
      | error f => trivial
      | ok o =>
          cases o with
          | none => trivial
          | some c => exact .pure (.value rfl hc)

namespace Checker

variable {t : SymbolTable} {later : List Part}

/-- What a declaration of the file scope says is merged with what is known, which changes the type
of no name. -/
theorem fileVar_elaborates {d : VarDecl} (h : Arranged (.fileVar d :: later)) :
    Answers ((fileVar d).run t)
      (fun o => t.Keeps [.fileVar d] o.2 ∧ ∀ u, o.2.Keeps later u →
        (Decl.var d).Elaborates u (.var o.1)) := by
  rw [fileVar]
  refine .run_lift d.staticValue?_folds fun value hd => ?_
  refine .run_get ?_
  have hentry : Answers (d.fileEntry value (t.find? d.name))
      (Symbol.Replaces (.integer d.type) (t.find? d.name)) :=
    (VarDecl.fileEntry_ensures (p := fun _ => True) trivial).answers
  refine .run_lift hentry fun entry he => ?_
  have hextends := SymbolTable.extends_put he.typeOf?
  refine .run_modify (.run_pure ⟨.of_extends hextends _, fun u hu => ?_⟩)
  refine .var (hu _ (h.notMem (by simp [Part.visible, Part.linked])) _ ?_) hd
  rw [SymbolTable.typeOf?_put, if_pos rfl, he.1]

/-- A variable of a block is entered before its initializer is checked. Its own entry is then the
one that every later table has, since the name is not declared again. -/
theorem localVar_elaborates {d : VarDecl} (h : Arranged (.var d :: later)) :
    Answers ((localVar d).run t)
      (fun o => t.Keeps [.var d] o.2 ∧ ∀ u, o.2.Keeps later u → d.ElaboratesKnown u o.1) := by
  -- the name keeps the type that it gets here
  have hsettled : ∀ {v u : SymbolTable}, v.Keeps later u →
      v.typeOf? d.name = some (.integer d.type) → u.typeOf? d.name = some (.integer d.type) := by
    intro v u hu hv
    exact hu _ (h.notMem (List.mem_append_right _ d.name_mem_visible)) _ hv
  have hput : ∀ s : Symbol, s.type = .integer d.type →
      SymbolTable.typeOf? (t.put d.name s) d.name = some (.integer d.type) := by
    intro s hs
    rw [SymbolTable.typeOf?_put, if_pos rfl, hs]
  have hunlinked : d.storage ≠ some .external → d.name ∈ [Part.var d].flatMap Part.unlinked := by
    intro hs
    simp [Part.unlinked, hs]
  rw [localVar]
  split
  · -- `extern`: the entry is new or has the type already
    rename_i hs
    split
    · exact .run_throw trivial
    · rename_i hi
      refine .run_get ?_
      split
      · rename_i hnone
        have hnone : t.typeOf? d.name = none := SymbolTable.typeOf?_eq_none.2 hnone
        refine .run_modify (.run_pure ⟨.of_extends (SymbolTable.extends_put (.inl hnone)) _, ?_⟩)
        exact fun u hu => ⟨hsettled hu (hput _ rfl), .external hs hi⟩
      · rename_i old hold
        refine .run_ite (fun hτ => .run_pure ⟨.refl _ _, fun u hu => ⟨hsettled hu ?_, ?_⟩⟩)
          fun _ => .run_throw trivial
        · rw [SymbolTable.typeOf?, hold, Option.map_some, hτ]
        · exact .external hs hi
  · rename_i hs
    refine .run_lift d.staticValue?_folds fun value hd => ?_
    refine .run_modify (.run_pure ⟨.put (hunlinked (by simp [hs])) _, fun u hu => ?_⟩)
    exact ⟨hsettled hu (hput _ rfl), .static hs hd⟩
  · -- automatic: the name is recorded before the initializer is checked
    rename_i hs
    have hkeeps := SymbolTable.Keeps.put (t := t) (hunlinked (by simp [hs])) (.automatic d.type)
    refine .run_modify ?_
    split
    · rename_i hi
      exact .run_pure ⟨hkeeps, fun u hu => ⟨hsettled hu (hput _ rfl), .automatic hs hi⟩⟩
    · rename_i e hi
      have harranged : Arranged (.expr e :: later) := by
        have hruns : (Part.var d).running = [e] := by simp [Part.running, VarDecl.running, hs, hi]
        have huses : (Part.expr e).uses = (Part.var d).uses := by
          rw [Part.uses, Part.uses, hruns]
          rfl
        refine ⟨List.pairwise_cons.2 ⟨fun y hy n hn => ?_, h.tail.apart⟩, ?_, ?_⟩
        · refine (List.pairwise_cons.1 h.apart).1 y hy n ?_
          simp only [huses, Part.visible, Part.linked, Part.unlinked, List.append_nil] at hn
          exact List.mem_append_left _ hn
        · refine List.forall_mem_cons.2 ⟨?_, h.tail.own⟩
          simp [Part.visible, Part.linked, Part.unlinked]
        · have hassigns := h.assigns
          rw [List.flatMap_cons, hruns] at hassigns
          exact hassigns
      refine (exprAs_elaborates d.type harranged).run_bind fun e' u₁ h₁ => .run_pure ?_
      obtain ⟨hu₁, he⟩ := h₁
      dsimp only at hu₁ he
      subst hu₁
      exact ⟨hkeeps, fun u hu => ⟨hsettled hu (hput _ rfl), .initialized hs hi (he u hu)⟩⟩

/-- A function header extends the table by its own name and keeps the type of every name before
it. -/
theorem function_elaborates (f : FunHeader) (defines : Bool) :
    Answers ((function f defines).run t)
      (fun o => t.Extends o.2 ∧ o.2.typeOf? f.name = some f.type) := by
  have hentry : Answers (f.entry defines (t.find? f.name))
      (Symbol.Replaces f.type (t.find? f.name)) :=
    (FunHeader.entry_ensures (p := fun _ => True) trivial).answers
  rw [function]
  refine .run_get (.run_lift hentry fun entry he => ?_)
  refine Ensures.pure ⟨SymbolTable.extends_put he.typeOf?, ?_⟩
  show SymbolTable.typeOf? (t.put f.name entry) f.name = some f.type
  rw [SymbolTable.typeOf?_put, if_pos rfl, he.1]

/-- Parameters with names of their own all get their types, and other names keep theirs. -/
theorem params_elaborate (ps : List Param) :
    ∀ t : SymbolTable, (ps.map Param.name).Nodup →
      Answers ((params ps).run t)
        (fun o => (∀ x, x ∉ ps.map Param.name → o.2.typeOf? x = t.typeOf? x) ∧
          ∀ q ∈ ps, o.2.typeOf? q.name = some (.integer q.type)) := by
  induction ps with
  | nil =>
      intro t _
      exact .run_pure ⟨fun _ _ => rfl, by simp⟩
  | cons q ps ih =>
      intro t hn
      rw [List.map_cons, List.nodup_cons] at hn
      rw [params]
      refine .run_modify ((ih _ hn.2).imp fun o ho => ?_)
      obtain ⟨hother, hps⟩ := ho
      refine ⟨fun x hx => ?_, ?_⟩
      · rw [List.map_cons, List.mem_cons, not_or] at hx
        rw [hother x hx.2, SymbolTable.typeOf?_put, if_neg hx.1]
      · refine List.forall_mem_cons.2 ⟨?_, hps⟩
        rw [hother _ hn.1, SymbolTable.typeOf?_put, if_pos rfl]
        rfl

/-- The header of a loop is elaborated like a declaration of a block or like an expression. -/
theorem forInit_elaborates {i : ForInit} (h : Arranged (i.parts ++ later)) :
    Answers ((forInit i).run t)
      (fun o => t.Keeps i.parts o.2 ∧ ∀ u, o.2.Keeps later u → i.Elaborates u o.1) := by
  cases i with
  | nothing => exact .run_pure ⟨.refl _ _, fun _ _ => .nothing⟩
  | decl d =>
      refine (localVar_elaborates h).run_bind fun d' t₁ ⟨hk, hd⟩ => .run_pure ⟨hk, fun u hu => ?_⟩
      exact .decl (hd u hu)
  | expr e =>
      refine (expr_elaborates h).run_bind fun e' t₁ ⟨ht, he⟩ => ?_
      dsimp only at ht he
      subst ht
      exact .run_pure ⟨.refl _ _, fun u hu => .expr (he u hu)⟩

/-- Checking a statement elaborates it in every later table, as far as the parts that are left do not
declare its names again. -/
def StmtElaborates (result : IntType) (s : Stmt) : Prop :=
  ∀ (t : SymbolTable) (later : List Part), Arranged (s.parts ++ later) →
    (∀ x ∈ s.parts, x.isFunction = false) →
    Answers ((stmt result s).run t)
      (fun o => t.Keeps s.parts o.2 ∧ ∀ u, o.2.Keeps later u → s.Elaborates u result o.1)

/-- The parts of a loop are checked in the order of the text, and each of them is elaborated in the
table behind the last one. -/
theorem forLoop_elaborates {result : IntType} {s : Span} {l : Option String} {init : ForInit}
    {e post : Option Expr} {body : Stmt} (hbody : StmtElaborates result body) :
    StmtElaborates result (.forLoop s l init e post body) := by
  intro t later h hflat
  rw [stmt]
  simp only [Stmt.parts, List.cons_append, List.append_assoc, List.forall_mem_cons,
    List.forall_mem_append] at h hflat
  have h := h.tail.tail
  refine (forInit_elaborates h).run_bind fun init' t₁ ⟨hi, hinit⟩ => ?_
  dsimp only at hi hinit
  refine (optionalExpr_elaborates h.right).run_bind fun e' t' ⟨ht, he⟩ => ?_
  dsimp only at ht he
  subst ht
  refine (optionalExpr_elaborates h.right.right).run_bind fun post' t' ⟨ht, hpost⟩ => ?_
  dsimp only at ht hpost
  subst ht
  refine (hbody t₁ later h.right.right.right hflat.2.2.2.2.2).run_bind
    fun body' t₂ ⟨hk, hb⟩ => ?_
  dsimp only at hk hb
  -- the expressions of the header declare nothing
  have hpost' : t₁.Keeps (Part.optional post ++ body.parts) t₂ :=
    .trans (.refl _ t₁) hk
  have he' : t₁.Keeps (Part.optional e ++ (Part.optional post ++ body.parts)) t₂ :=
    .trans (.refl _ t₁) hpost'
  refine .run_pure ⟨(hi.trans he').cons.cons, fun u hu => ?_⟩
  have hlast : t₁.Keeps (body.parts ++ later) u := hk.trans hu
  have hrest : t₁.Keeps (Part.optional post ++ (body.parts ++ later)) u :=
    .trans (.refl _ t₁) hlast
  exact .forLoop (hinit u (.trans (.refl _ t₁) hrest)) (he u hrest) (hpost u hlast) (hb u hu)

mutual
/-- By cases on the statement. The parts still to come (`later`) are carried along, since they
decide which entries a later table keeps. -/
theorem stmt_elaborates (result : IntType) : (s : Stmt) → StmtElaborates result s
  | .ret s e, t, later, h, _ => by
      rw [stmt]
      refine (exprAs_elaborates result h.tail).run_bind fun e' t' ⟨ht, he⟩ => ?_
      subst ht
      exact .run_pure ⟨.refl _ _, fun u hu => .ret (he u hu)⟩
  | .expr s e, t, later, h, _ => by
      rw [stmt]
      refine (expr_elaborates h.tail).run_bind fun e' t' ⟨ht, he⟩ => ?_
      subst ht
      exact .run_pure ⟨.refl _ _, fun u hu => .expr (he u hu)⟩
  | .ifThen s e yes, t, later, h, hflat => by
      rw [stmt]
      simp only [Stmt.parts, List.cons_append, List.forall_mem_cons] at h hflat
      refine (expr_elaborates h.tail).run_bind fun e' t' ⟨ht, he⟩ => ?_
      dsimp only at ht he
      subst ht
      refine (stmt_elaborates result yes t later h.tail.tail hflat.2.2).run_bind
        fun yes' t₁ ⟨hk, hy⟩ => .run_pure ⟨hk.cons.cons, fun u hu => ?_⟩
      exact .ifThen (he u (hk.trans hu)) (hy u hu)
  | .ifElse s e yes no, t, later, h, hflat => by
      rw [stmt]
      simp only [Stmt.parts, List.cons_append, List.append_assoc, List.forall_mem_cons,
        List.forall_mem_append] at h hflat
      refine (expr_elaborates h.tail).run_bind fun e' t' ⟨ht, he⟩ => ?_
      dsimp only at ht he
      subst ht
      refine (stmt_elaborates result yes t _ h.tail.tail hflat.2.2.1).run_bind
        fun yes' t₁ ⟨hk, hy⟩ => ?_
      refine (stmt_elaborates result no t₁ later h.tail.tail.right hflat.2.2.2).run_bind
        fun no' t₂ ⟨hk', hn⟩ => .run_pure ⟨(hk.trans hk').cons.cons, fun u hu => ?_⟩
      exact .ifElse (he u (hk.trans (hk'.trans hu))) (hy u (hk'.trans hu)) (hn u hu)
  | .block s is, t, later, h, hflat => by
      rw [stmt]
      simp only [Stmt.parts, List.cons_append, List.forall_mem_cons] at h hflat
      refine (items_elaborate result is t later h.tail hflat.2).run_bind
        fun is' t₁ ⟨hk, his⟩ => .run_pure ⟨hk.cons, fun u hu => .block (his u hu)⟩
  | .whileLoop s l e body, t, later, h, hflat => by
      rw [stmt]
      simp only [Stmt.parts, List.cons_append, List.forall_mem_cons] at h hflat
      refine (expr_elaborates h.tail.tail).run_bind fun e' t' ⟨ht, he⟩ => ?_
      dsimp only at ht he
      subst ht
      refine (stmt_elaborates result body t later h.tail.tail.tail hflat.2.2.2).run_bind
        fun body' t₁ ⟨hk, hb⟩ => .run_pure ⟨hk.cons.cons.cons, fun u hu => ?_⟩
      exact .whileLoop (he u (hk.trans hu)) (hb u hu)
  | .doLoop s l body e, t, later, h, hflat => by
      rw [stmt]
      simp only [Stmt.parts, List.cons_append, List.append_assoc, List.forall_mem_cons,
        List.forall_mem_append] at h hflat
      refine (stmt_elaborates result body t _ h.tail.tail hflat.2.2.1).run_bind
        fun body' t₁ ⟨hk, hb⟩ => ?_
      refine (expr_elaborates h.tail.tail.right).run_bind fun e' t' ⟨ht, he⟩ => ?_
      dsimp only at hk hb ht he
      subst ht
      refine .run_pure ⟨(hk.trans (.refl [.expr e] t₁)).cons.cons, fun u hu => ?_⟩
      exact .doLoop (hb u ((SymbolTable.Keeps.refl [.expr e] t₁).trans hu)) (he u hu)
  | .forLoop s l init e post body, t, later, h, hflat =>
      forLoop_elaborates (stmt_elaborates result body) t later h hflat
  | .breakLoop s l, t, later, _, _ => .run_pure ⟨.refl _ _, fun _ _ => .breakLoop⟩
  | .continueLoop s l, t, later, _, _ => .run_pure ⟨.refl _ _, fun _ _ => .continueLoop⟩
  | .null s, t, later, _, _ => .run_pure ⟨.refl _ _, fun _ _ => .null⟩
termination_by structural s => s

/-- A function is not defined inside another one, so no item changes the type of a name with
linkage. -/
theorem item_elaborates (result : IntType) :
    (i : Item) → ∀ (t : SymbolTable) (later : List Part), Arranged (i.parts ++ later) →
      (∀ x ∈ i.parts, x.isFunction = false) →
      Answers ((item result i).run t)
        (fun o => t.Keeps i.parts o.2 ∧ ∀ u, o.2.Keeps later u → i.Elaborates u result o.1)
  | .stmt s, t, later, h, hflat => by
      rw [item]
      refine (stmt_elaborates result s t later h hflat).run_bind
        fun s' t₁ ⟨hk, hs⟩ => .run_pure ⟨hk, fun u hu => .stmt (hs u hu)⟩
  | .decl (.var d), t, later, h, _ => by
      rw [item]
      refine (localVar_elaborates h).run_bind
        fun d' t₁ ⟨hk, hd⟩ => .run_pure ⟨hk, fun u hu => .var (hd u hu)⟩
  | .decl (.prototype f), t, later, h, _ => by
      rw [item]
      refine (function_elaborates f false).run_bind
        fun _ t₁ h₁ => .run_pure ⟨.of_extends h₁.1 _, fun u hu => ?_⟩
      exact .prototype (hu _ (h.notMem (by simp [Part.visible, Part.linked])) _ h₁.2)
  | .decl (.function f s body), t, later, _, hflat => by
      exact absurd (hflat (.function f) List.mem_cons_self) (by simp [Part.isFunction])
termination_by structural i => i

theorem items_elaborate (result : IntType) :
    (is : List Item) → ∀ (t : SymbolTable) (later : List Part),
      Arranged (Item.allParts is ++ later) → (∀ x ∈ Item.allParts is, x.isFunction = false) →
      Answers ((items result is).run t)
        (fun o => t.Keeps (Item.allParts is) o.2 ∧
          ∀ u, o.2.Keeps later u → Item.AllElaborate u result is o.1)
  | [], t, later, _, _ => .run_pure ⟨.refl _ _, fun _ _ => .nil⟩
  | i :: is, t, later, h, hflat => by
      rw [items]
      simp only [Item.allParts, List.append_assoc, List.forall_mem_append] at h hflat
      refine (item_elaborates result i t _ h hflat.1).run_bind fun i' t₁ ⟨hk, hi⟩ => ?_
      refine (items_elaborate result is t₁ later h.right hflat.2).run_bind
        fun is' t₂ ⟨hk', his⟩ => .run_pure ⟨hk.trans hk', fun u hu => ?_⟩
      exact .cons (hi u (hk'.trans hu)) (his u hu)
termination_by structural is => is
end

/-- The parameters of a function are entered as variables of its body, after the function itself. -/
theorem decl_elaborates {d : Decl} (h : Arranged (d.parts ++ later)) (hflat : d.Flat) :
    Answers ((decl d).run t)
      (fun o => t.Keeps d.parts o.2 ∧ ∀ u, o.2.Keeps later u → d.Elaborates u o.1) := by
  cases d with
  | var d => exact (fileVar_elaborates h).run_bind fun d' t₁ hd => .run_pure hd
  | prototype f =>
      refine (function_elaborates f false).run_bind
        fun _ t₁ h₁ => .run_pure ⟨.of_extends h₁.1 _, fun u hu => ?_⟩
      exact .prototype (hu _ (h.notMem (by simp [Part.visible, Part.linked])) _ h₁.2)
  | function f s body =>
      have hvisible : (Part.function f).visible = f.name :: f.params.map Param.name := rfl
      have hnodup : (f.name :: f.params.map Param.name).Nodup := h.own _ List.mem_cons_self
      rw [List.nodup_cons] at hnodup
      rw [decl]
      refine (function_elaborates f true).run_bind fun _ t₁ h₁ => ?_
      refine (params_elaborate f.params t₁ hnodup.2).run_bind fun _ t₂ h₂ => ?_
      obtain ⟨hg, hf⟩ := h₁
      obtain ⟨hother, hps⟩ := h₂
      dsimp only at hg hf hother hps
      -- parameters have names of their own, so all other names keep their types
      have hparams : t.Keeps [.function f] t₂ := by
        intro x hx τ hτ
        have hx : x ∉ f.params.map Param.name := by
          simpa [Part.unlinked, FunHeader.paramNames] using hx
        rw [hother x hx]
        exact hg x τ hτ
      refine (items_elaborate f.result body t₂ later h.tail.tail
        fun x hx => hflat x (List.mem_cons_of_mem _ hx)).run_bind
        fun body' t₃ hb => .run_pure ⟨hparams.trans hb.1.cons, fun u hu => ?_⟩
      have hafter : t₂.Keeps (.span s :: Item.allParts body ++ later) u := hb.1.cons.trans hu
      refine .function (hafter _ (h.notMem ?_) _ ?_)
        (fun q hq => hafter _ (h.notMem ?_) _ (hps q hq)) (hb.2 u hu)
      · simp [hvisible]
      · rw [hother _ hnodup.1]
        exact hf
      · rw [hvisible, List.mem_append]
        exact .inr (List.mem_cons_of_mem _ (List.mem_map_of_mem hq))

/-- The whole file scope is elaborated in the table that is left at the end. -/
theorem decls_elaborate (ds : List Decl) :
    ∀ t : SymbolTable, Arranged (ds.flatMap Decl.parts) → (∀ d ∈ ds, d.Flat) →
      Answers ((decls ds).run t)
        (fun o => t.Keeps (ds.flatMap Decl.parts) o.2 ∧
          List.Forall₂ (Decl.Elaborates o.2) ds o.1) := by
  induction ds with
  | nil => exact fun t _ _ => .run_pure ⟨.refl _ _, .nil⟩
  | cons d ds ih =>
      intro t h hflat
      rw [List.flatMap_cons] at h
      obtain ⟨hfd, hfds⟩ := List.forall_mem_cons.1 hflat
      rw [decls]
      refine (decl_elaborates h hfd).run_bind fun d' t₁ hd => ?_
      refine (ih t₁ h.right hfds).run_bind fun ds' t₂ hds => .run_pure ⟨?_, ?_⟩
      · rw [List.flatMap_cons]
        exact hd.1.trans hds.1
      · exact .cons (hd.2 t₂ hds.1) hds.2

end Checker

/-- Checking a program whose names are declared first, against any table. -/
theorem Program.check_arranged {p : Program} (h : Arranged p.parts) (hflat : ∀ d ∈ p.decls, d.Flat)
    (t : SymbolTable) : Answers (p.check t) (fun r => p.Elaborates r.2 r.1) := by
  refine Ensures.bind (Checker.decls_elaborate p.decls t h hflat) fun r ⟨_, hds⟩ => .pure ?_
  exact ⟨rfl, hds⟩

/-! ## Texts -/

/-- Labelling loops puts no function inside another one. -/
theorem LoopNamer.decls_flat (ds : List Decl) :
    ∀ n : Nat, (∀ d ∈ ds, d.Flat) → Answers ((decls ds).run n) (fun o => ∀ d ∈ o.1, d.Flat) := by
  induction ds with
  | nil => exact fun n _ => .run_pure (by simp)
  | cons d ds ih =>
      intro n hflat
      obtain ⟨hd, hds⟩ := List.forall_mem_cons.1 hflat
      cases d with
      | var _ | prototype _ =>
          refine (ih n hds).run_bind fun ds' n₁ hds' => .run_pure ?_
          exact List.forall_mem_cons.2 ⟨hd, hds'⟩
      | function f s body =>
          rw [decls]
          refine (Ensures.answers (items_labels body none n)).run_bind
            fun body' n₁ ⟨_, hbody', _⟩ => ?_
          refine (ih n₁ hds).run_bind fun ds' n₂ hds' => .run_pure ?_
          refine List.forall_mem_cons.2 ⟨?_, hds'⟩
          -- a function begins in the new body only where one began in the old body
          have hmap : ∀ zs : List Part, (∀ x ∈ zs, x.isFunction = false) ↔
              ∀ x ∈ zs.map Part.unlabelled, x.isFunction = false := by
            intro zs
            simp
          have hbody : ∀ x ∈ Item.allParts body', x.isFunction = false := by
            rw [hmap, Item.sameParts_of_allUnlabelled_eq hbody', ← hmap]
            exact fun x hx => hd x (List.mem_cons_of_mem _ hx)
          exact List.forall_mem_cons.2 ⟨rfl, hbody⟩

/-- The parts of a resolved program stand in order, before and after its loops are labelled. -/
theorem Program.arranged_of_text {text : String} {ts : List Token} {tree r l : Program}
    (hts : tokens text = .ok ts) (htree : Program.ofTokens ts = .ok tree)
    (hr : tree.resolve = .ok r) (hl : l = r ∨ r.nameLoops = .ok l) :
    Arranged l.parts ∧ ∀ d ∈ l.decls, d.Flat := by
  have hscoped := ((resolve_scoped_of_written (written_of_text hts htree)).ok_of_eq hr).2.1
  obtain ⟨hi, hresolved⟩ := (resolve_ensures (allRead_of_text hts htree)).ok_of_eq hr
  obtain ⟨hdeclared, hflat⟩ := declaredFirst hscoped
  have harranged := Arranged.of_resolved hresolved hdeclared
  rcases hl with rfl | hl
  · exact ⟨harranged, hflat⟩
  · obtain ⟨hsame, -⟩ := (nameLoops_ensures hresolved.read).ok_of_eq hl
    have hlflat : Answers r.nameLoops (fun l => ∀ d ∈ l.decls, d.Flat) := by
      refine Ensures.bind (q := fun ds => ∀ d ∈ ds, d.Flat) ?_ fun ds hds => .pure hds
      exact Ensures.map (LoopNamer.decls_flat r.decls 0 hflat)
    exact ⟨harranged.of_sameParts hsame, hlflat.ok_of_eq hl⟩

/-- What passes validation against any table is typed, and its loops have labels. -/
theorem Program.typed_of_validate {text : String} {ts : List Token} {tree q : Program}
    {t t' : SymbolTable} (hts : tokens text = .ok ts) (htree : Program.ofTokens ts = .ok tree)
    (hq : tree.validate t = .ok (q, t')) :
    (∀ d ∈ q.decls, d.Typed t') ∧ ∀ d ∈ q.decls, d.Labelled := by
  obtain ⟨r, hr, hq⟩ := bind_eq_ok.1 hq
  obtain ⟨l, hl, hq⟩ := bind_eq_ok.1 hq
  obtain ⟨harranged, hflat⟩ := arranged_of_text hts htree hr (.inr hl)
  obtain ⟨-, helaborate⟩ : l.Elaborates t' q := (check_arranged harranged hflat t).ok_of_eq hq
  obtain ⟨hi, hresolved⟩ := (resolve_ensures (allRead_of_text hts htree)).ok_of_eq hr
  obtain ⟨-, hlabelled⟩ := (nameLoops_ensures hresolved.read).ok_of_eq hl
  exact ⟨Decl.typed_of_elaborate helaborate, Decl.labelled_of_elaborate helaborate hlabelled⟩

/-- Checking a resolved program, against whatever table, changes it by types, needed conversions and
the values of static objects, and leaves it typed. -/
theorem Program.elaboration_of_check {text : String} {ts : List Token} {tree r l q : Program}
    {t t' : SymbolTable} (hts : tokens text = .ok ts) (htree : Program.ofTokens ts = .ok tree)
    (hr : tree.resolve = .ok r) (hl : l = r ∨ r.nameLoops = .ok l) (hq : l.check t = .ok (q, t')) :
    l.Elaborates t' q ∧ ∀ d ∈ q.decls, d.Typed t' := by
  obtain ⟨harranged, hflat⟩ := arranged_of_text hts htree hr hl
  have h : l.Elaborates t' q := (check_arranged harranged hflat t).ok_of_eq hq
  exact ⟨h, Decl.typed_of_elaborate h.2⟩

/-- The text of a program with every kind of conversion. -/
def conversionText : String :=
  "static unsigned u = 4294967297l; long f(int a, unsigned b) \x7b static int s = 5000000000l; " ++
    "long c = a; c = a < b; while (c) \x7b c = f(c, a) + 1; \x7d return a ? b << c : a; \x7d"

theorem Program.elaboration_of_check_conversionText :
    ∃ ts tree r l q t', tokens conversionText = .ok ts ∧ Program.ofTokens ts = .ok tree ∧
      tree.resolve = .ok r ∧ r.nameLoops = .ok l ∧
      l.check [("a.0", .automatic .long)] = .ok (q, t') ∧ l.Elaborates t' q ∧
      ∀ d ∈ q.decls, d.Typed t' := by
  have hchars : conversionText.toList = _ :=
    toList_append_eq String.toList_ofList String.toList_ofList
  have h : ((tokens conversionText).toOption.bind fun ts =>
      (Program.ofTokens ts).toOption.bind fun tree =>
        tree.resolve.toOption.bind fun r => r.nameLoops.toOption.bind fun l =>
          (l.check [("a.0", .automatic .long)]).toOption.bind fun o => some o.2.names) =
      some ["a.0", "u", "f", "b.1", "s.2", "c.3"] := by
    rw [tokens, hchars]
    decide +kernel
  obtain ⟨ts, hts, h⟩ := toOption_bind_eq_some.1 h
  obtain ⟨tree, htree, h⟩ := toOption_bind_eq_some.1 h
  obtain ⟨r, hr, h⟩ := toOption_bind_eq_some.1 h
  obtain ⟨l, hl, h⟩ := toOption_bind_eq_some.1 h
  obtain ⟨⟨q, t'⟩, hq, -⟩ := toOption_bind_eq_some.1 h
  exact ⟨ts, tree, r, l, q, t', hts, htree, hr, hl, hq,
    elaboration_of_check hts htree hr (.inr hl) hq⟩

end IntegerC
