import IntegerC.Proofs.ThreeAddress.ExprCoding

set_option autoImplicit false

/-! # What making code for a program ensures

Code is made for every checked statement whose loops are labelled. It is well typed in the symbol
table with its temporaries, and no label is set twice in it: the labels of its loops are made from
names of loops, and the other ones have numbers of their own.
-/

namespace IntegerC.ThreeAddress

/-! ## Labels -/

/-- What stands before the name of a loop in its labels. -/
def loopFronts : List String := ["start_", "continue_", "break_"]

/-- The labels that belong to the loop labelled `loop`. -/
def loopLabels (loop : String) : List String := loopFronts.map (· ++ loop)

theorem loopLabels_eq (loop : String) :
    loopLabels loop = [startLabel loop, continueLabel loop, breakLabel loop] := rfl

/-- A label of a loop tells both the loop and what stands before its name. -/
theorem loopFronts_inj : ∀ front ∈ loopFronts, ∀ word ∈ loopWords, ∀ front' ∈ loopFronts,
    ∀ word' ∈ loopWords, front ++ word = front' ++ word' → front = front' ∧ word = word' := by
  decide

theorem loopFront_notMem_coderWords : ∀ front ∈ loopFronts, ∀ word ∈ loopWords,
    front ++ word ∉ coderWords := by
  decide

/-- The three labels of a loop start differently, and two loops have different numbers. -/
theorem nodup_loopLabels {lo hi : Nat} {loops : List String} (h : LoopsGiven lo hi loops) :
    (loops.flatMap loopLabels).Nodup := by
  refine List.nodup_flatMap.2 ⟨fun l hl => ?_, h.nodup.imp_of_mem fun {l l'} hl hl' hne => ?_⟩
  · refine List.Nodup.map_on (fun front hf front' hf' e => ?_) (by decide)
    obtain ⟨word, n, hw, -, -, rfl⟩ := h.made l hl
    rw [append_numbered, append_numbered] at e
    exact (loopFronts_inj front hf word hw front' hf' word hw (numbered_inj.1 e).1).1
  · intro x hx hx'
    obtain ⟨word, n, hw, -, -, rfl⟩ := h.made l hl
    obtain ⟨word', n', hw', -, -, rfl⟩ := h.made l' hl'
    obtain ⟨front, hf, rfl⟩ := List.mem_map.1 hx
    obtain ⟨front', hf', e⟩ := List.mem_map.1 hx'
    rw [append_numbered, append_numbered] at e
    obtain ⟨hword, rfl⟩ := numbered_inj.1 e
    exact hne (by rw [(loopFronts_inj front' hf' word' hw' front hf word hw hword).2])

/-- The labels in the code of a statement with the loops `loops`: those of the loops, and others
made with the numbers from `lo` up to but not including `hi`. -/
def StmtLabels (lo hi : Nat) (loops : List String) (labels : List String) : Prop :=
  ∃ made looped, labels.Perm (made ++ looped) ∧ Numbered (· ∈ coderWords) lo hi made ∧
    looped.Subperm (loops.flatMap loopLabels)

namespace StmtLabels

variable {lo mid hi : Nat} {loops loops' labels labels' : List String}

theorem of_made (h : Numbered (· ∈ coderWords) lo hi labels) : StmtLabels lo hi [] labels :=
  ⟨labels, [], by simp, h, List.nil_subperm⟩

/-- Code behind other code takes the numbers behind its own, so their labels go together. -/
theorem append (h : StmtLabels lo mid loops labels) (h' : StmtLabels mid hi loops' labels') :
    StmtLabels lo hi (loops ++ loops') (labels ++ labels') := by
  obtain ⟨made, looped, hp, hm, hl⟩ := h
  obtain ⟨made', looped', hp', hm', hl'⟩ := h'
  refine ⟨made ++ made', looped ++ looped', (hp.append hp').trans ?_, hm.append hm', ?_⟩
  · simp only [List.append_assoc]
    refine List.Perm.append_left _ ?_
    rw [← List.append_assoc, ← List.append_assoc]
    exact List.Perm.append_right _ List.perm_append_comm
  · rw [List.flatMap_append]
    exact hl.append hl'

theorem perm (h : StmtLabels lo hi loops labels) (hp : labels.Perm labels') :
    StmtLabels lo hi loops labels' := by
  obtain ⟨made, looped, hp', hm, hl⟩ := h
  exact ⟨made, looped, hp.symm.trans hp', hm, hl⟩

/-- Labels of the loop itself may come on top of those of its body. -/
theorem loop {l : String} {own : List String} (ho : own.Subperm (loopLabels l))
    (h : StmtLabels lo hi loops labels) : StmtLabels lo hi (l :: loops) (own ++ labels) := by
  obtain ⟨made, looped, hp, hm, hl⟩ := h
  refine ⟨made, own ++ looped, ?_, hm, ho.append hl⟩
  refine (List.Perm.append_left own hp).trans ?_
  rw [← List.append_assoc, ← List.append_assoc]
  exact List.Perm.append_right _ List.perm_append_comm

/-- No label is set twice. -/
theorem nodup {lo' hi' : Nat} (h : StmtLabels lo hi loops labels) (hl : LoopsGiven lo' hi' loops) :
    labels.Nodup := by
  obtain ⟨made, looped, hp, hm, hs⟩ := h
  rw [hp.nodup_iff, List.nodup_append]
  refine ⟨hm.nodup, ?_, fun x hx y hy e => ?_⟩
  · obtain ⟨l, hperm, hsub⟩ := hs
    exact hperm.nodup_iff.1 ((nodup_loopLabels hl).sublist hsub)
  · subst e
    obtain ⟨word, n, hw, -, -, rfl⟩ := hm.made x hx
    obtain ⟨loop, hloop, hx⟩ := List.mem_flatMap.1 (hs.subset hy)
    obtain ⟨front, hf, e⟩ := List.mem_map.1 hx
    obtain ⟨word', n', hw', -, -, rfl⟩ := hl.made loop hloop
    rw [append_numbered] at e
    exact loopFront_notMem_coderWords front hf word' hw' ((numbered_inj.1 e).1 ▸ hw)

/-- All labels are made of words. -/
theorem named {lo' hi' : Nat} (h : StmtLabels lo hi loops labels) (hl : LoopsGiven lo' hi' loops) :
    ∀ l ∈ labels, Named l := by
  have hwords : ∀ word ∈ coderWords, Plain word := by decide
  have hfronts : ∀ front ∈ loopFronts, ∀ word ∈ loopWords, Plain (front ++ word) := by decide
  obtain ⟨made, looped, hp, hm, hs⟩ := h
  intro l hmem
  rcases List.mem_append.1 (hp.mem_iff.1 hmem) with hmem | hmem
  · obtain ⟨word, n, hw, -, -, rfl⟩ := hm.made l hmem
    exact named_numbered (hwords word hw) n
  · obtain ⟨loop, hloop, hx⟩ := List.mem_flatMap.1 (hs.subset hmem)
    obtain ⟨front, hf, rfl⟩ := List.mem_map.1 hx
    obtain ⟨word, n, hw, -, -, rfl⟩ := hl.made loop hloop
    rw [append_numbered]
    exact named_numbered (hfronts front hf word hw) n

end StmtLabels

/-! ## Pieces of code -/

/-- How a supply `s` becomes `s'` and gives the code of a statement with the loops `loops`. -/
structure CodeMade (s s' : Supply) (loops : List String) (code : List Instr) : Prop where
  grows : s.Grows s'
  typed : CodeTyped s'.symbols code
  labels : StmtLabels s.labels s'.labels loops (labelsOf code)

namespace CodeMade

variable {s s₁ s' : Supply} {loops loops' : List String} {code code' : List Instr}

theorem nil (s : Supply) : CodeMade s s [] [] :=
  ⟨.refl s, codeTyped_nil, .of_made (.nil (Nat.le_refl _))⟩

theorem of_expr {vars : List String} {τ : IntType} {out : ExprCode} (h : out.Made s s' vars τ) :
    CodeMade s s' [] out.code :=
  ⟨h.grows, h.typed, .of_made h.labels⟩

theorem append (h : CodeMade s s₁ loops code) (h' : CodeMade s₁ s' loops' code') :
    CodeMade s s' (loops ++ loops') (code ++ code') where
  grows := h.grows.trans h'.grows
  typed := codeTyped_append.2 ⟨h.typed.mono h'.grows.symbols, h'.typed⟩
  labels := by
    rw [labelsOf_append]
    exact h.labels.append h'.labels

/-- Instructions without labels may stand anywhere. -/
theorem instr {i : Instr} (h : i.WellTyped s.symbols) (hl : i.label? = none) :
    CodeMade s s [] [i] := by
  refine ⟨.refl s, by simpa using h, .of_made ?_⟩
  rw [labelsOf_cons, hl]
  exact .nil (Nat.le_refl _)

/-- Code may be laid out differently, with instructions of the loop or of other forms added, as long
as its labels are the same or belong to the loop. -/
theorem relabel (h : CodeMade s s' loops code) (ht : CodeTyped s'.symbols code')
    (hp : (labelsOf code).Perm (labelsOf code')) : CodeMade s s' loops code' :=
  ⟨h.grows, ht, h.labels.perm hp⟩

theorem loop {l : String} {o : List String} (h : CodeMade s s' loops code)
    (ho : o.Subperm (loopLabels l)) (ht : CodeTyped s'.symbols code')
    (hp : (o ++ labelsOf code).Perm (labelsOf code')) : CodeMade s s' (l :: loops) code' :=
  ⟨h.grows, ht, (h.labels.loop ho).perm hp⟩

/-! ### Layouts

In each of them the code of the parts stands in another order than it was made in. The labels of the
whole are those of the parts, and those of the loop on top of them.
-/

variable {s₂ s₃ s₄ : Supply} {out : ExprCode} {τ : IntType} {name finish other : String}
  {part part' : List Instr}

/-- One label is made between the test and the part, so it is in neither of them. -/
theorem ifThen (ho : CodeMade s s₁ [] out.code) (hv : out.value.HasType s₁.symbols τ)
    (hf : CodeMade s₁ s₂ [] [.label finish]) (hy : CodeMade s₂ s' loops part) :
    CodeMade s s' loops
      (out.code ++ [.jumpIfZero out.value finish] ++ part ++ [.label finish]) := by
  have hjump : (Instr.jumpIfZero out.value finish).WellTyped s'.symbols :=
    ⟨τ, hv.mono (hf.grows.trans hy.grows).symbols⟩
  have hparts := (ho.append hf).append hy
  refine hparts.relabel ?_ ?_
  · have ht := hparts.typed
    simp only [codeTyped_append] at ht
    obtain ⟨⟨htest, -⟩, hyes⟩ := ht
    simp [htest, hjump, hyes]
  · simp only [labelsOf_append, labelsOf_cons, labelsOf_nil, Instr.label?]
    grind

/-- Both labels are made before the parts are, and the parts have numbers behind them. -/
theorem ifElse (ho : CodeMade s s₁ [] out.code) (hv : out.value.HasType s₁.symbols τ)
    (hf : CodeMade s₁ s₂ [] [.label finish]) (hother : CodeMade s₂ s₃ [] [.label other])
    (hy : CodeMade s₃ s₄ loops part) (hn : CodeMade s₄ s' loops' part') :
    CodeMade s s' (loops ++ loops')
      (out.code ++ [.jumpIfZero out.value other] ++ part ++ [.jump finish, .label other] ++ part' ++
        [.label finish]) := by
  have hjump : (Instr.jumpIfZero out.value other).WellTyped s'.symbols :=
    ⟨τ, hv.mono (hf.grows.trans (hother.grows.trans (hy.grows.trans hn.grows))).symbols⟩
  have hparts := (((ho.append hf).append hother).append hy).append hn
  refine hparts.relabel ?_ ?_
  · have ht := hparts.typed
    simp only [codeTyped_append] at ht
    obtain ⟨⟨⟨⟨htest, -⟩, -⟩, hyes⟩, hno⟩ := ht
    simp [htest, hjump, hyes, hno]
  · simp only [labelsOf_append, labelsOf_cons, labelsOf_nil, Instr.label?]
    grind

theorem doLoop (ho : CodeMade s s₁ [] out.code) (hv : out.value.HasType s₁.symbols τ)
    (hb : CodeMade s₁ s' loops part) :
    CodeMade s s' (name :: loops)
      ([.label (startLabel name)] ++ part ++ [.label (continueLabel name)] ++ out.code ++
        [.jumpIfNotZero out.value (startLabel name), .label (breakLabel name)]) := by
  have hjump : (Instr.jumpIfNotZero out.value (startLabel name)).WellTyped s'.symbols :=
    ⟨τ, hv.mono hb.grows.symbols⟩
  have hparts := ho.append hb
  refine hparts.loop (List.Subperm.refl _) ?_ ?_
  · obtain ⟨htest, hbody⟩ := codeTyped_append.1 hparts.typed
    simp [htest, hjump, hbody]
  · simp only [labelsOf_append, labelsOf_cons, labelsOf_nil, Instr.label?, loopLabels_eq]
    grind

theorem whileLoop (ho : CodeMade s s₁ [] out.code) (hv : out.value.HasType s₁.symbols τ)
    (hb : CodeMade s₁ s' loops part) :
    CodeMade s s' (name :: loops)
      ([.label (continueLabel name)] ++ out.code ++ [.jumpIfZero out.value (breakLabel name)] ++
        part ++ [.jump (continueLabel name), .label (breakLabel name)]) := by
  have hjump : (Instr.jumpIfZero out.value (breakLabel name)).WellTyped s'.symbols :=
    ⟨τ, hv.mono hb.grows.symbols⟩
  have hparts := ho.append hb
  -- the loop has no label at its start
  refine hparts.loop (o := [continueLabel name, breakLabel name]) ?_ ?_ ?_
  · rw [loopLabels_eq]
    exact (List.sublist_cons_self _ _).subperm
  · obtain ⟨htest, hbody⟩ := codeTyped_append.1 hparts.typed
    simp [htest, hjump, hbody]
  · simp only [labelsOf_append, labelsOf_cons, labelsOf_nil, Instr.label?]
    grind

/-- A loop has labels of its own name, which no part of it has. -/
theorem forLoop {first test : List Instr} (hi : CodeMade s s₁ [] first)
    (ht : CodeMade s₁ s₂ [] test) (hb : CodeMade s₂ s₃ loops part)
    (hp : CodeMade s₃ s' [] part') :
    CodeMade s s' (name :: loops)
      (first ++ [.label (startLabel name)] ++ test ++ part ++ [.label (continueLabel name)] ++
        part' ++ [.jump (startLabel name), .label (breakLabel name)]) := by
  have hparts := ((hi.append ht).append hb).append hp
  simp only [List.nil_append, List.append_nil] at hparts
  refine hparts.loop (List.Subperm.refl _) ?_ ?_
  · have ht := hparts.typed
    simp only [codeTyped_append] at ht
    obtain ⟨⟨⟨hfirst, htest⟩, hbody⟩, hpost⟩ := ht
    simp [hfirst, htest, hbody, hpost]
  · simp only [labelsOf_append, labelsOf_cons, labelsOf_nil, Instr.label?, loopLabels_eq]
    grind

end CodeMade

/-- A function whose code is well typed in the table, in which no label is set twice, and whose
parameters are variables. -/
structure Function.Made (t : SymbolTable) (f : Function) : Prop where
  typed : CodeTyped t f.body
  labels : (labelsOf f.body).Nodup
  params : ∀ x ∈ f.params, ∃ τ, t.typeOf? x = some (.integer τ)

theorem Function.Made.mono {t u : SymbolTable} (h : t.Extends u) {f : Function} (hf : f.Made t) :
    f.Made u :=
  ⟨hf.typed.mono h, hf.labels, fun x hx => (hf.params x hx).imp fun _ hτ => h _ _ hτ⟩

namespace Coder

theorem label_made {word : String} (h : word ∈ coderWords) (s : Supply) :
    Succeeds ((label word).run s) (fun o => CodeMade s o.2 [] [.label o.1]) := by
  refine (label_ensures word s).imp fun o ⟨hname, hsym, hl⟩ =>
    ⟨.of_symbols_eq hsym (by omega), ?_, .of_made ?_⟩
  · simp [Instr.WellTyped]
  · rw [hl, hname]
    exact .single word h s.labels

theorem expr_code_made {e : Expr} {s : Supply} (h : e.Typed s.symbols) :
    Succeeds ((expr e).run s) (fun o => CodeMade s o.2 [] o.1.code ∧
      ∃ τ, o.1.value.HasType o.2.symbols τ) := by
  obtain ⟨τ, hτ⟩ := h
  exact (expr_made e s τ hτ).imp fun o ho => ⟨.of_expr ho, τ, ho.value⟩

theorem localVar_made {d : VarDecl} {s : Supply} (h : d.Typed s.symbols) :
    Succeeds ((localVar d).run s) (fun o => CodeMade s o.2 [] o.1) := by
  rw [localVar]
  split
  · rename_i e hs hd
    obtain ⟨hx, he⟩ := h hs
    refine (expr_made e s d.type (he e hd)).run_bind fun out s₁ ho => .run_pure ?_
    have hcopy : (Instr.copy out.value (.var d.name)).WellTyped s₁.symbols :=
      ⟨d.type, d.type, ho.value, ⟨d.name, rfl, ho.grows.symbols _ _ hx⟩, rfl⟩
    exact (CodeMade.of_expr ho).append (.instr hcopy rfl)
  · exact .run_pure (.nil s)

theorem forInit_made {i : ForInit} {s : Supply} (h : i.Typed s.symbols) :
    Succeeds ((forInit i).run s) (fun o => CodeMade s o.2 [] o.1) := by
  cases i with
  | nothing => exact .run_pure (.nil s)
  | decl d => exact localVar_made h
  | expr e => exact (expr_code_made h).run_bind fun out s₁ ho => .run_pure ho.1

theorem exitTest_made {target : String} {o : Option Expr} {s : Supply}
    (h : ∀ e ∈ o, e.Typed s.symbols) :
    Succeeds ((exitTest target o).run s) (fun u => CodeMade s u.2 [] u.1) := by
  cases o with
  | none => exact .run_pure (.nil s)
  | some e =>
      refine (expr_code_made (h e rfl)).run_bind fun out s₁ ⟨ho, hv⟩ => .run_pure ?_
      exact ho.append (.instr hv rfl)

theorem step_made {o : Option Expr} {s : Supply} (h : ∀ e ∈ o, e.Typed s.symbols) :
    Succeeds ((step o).run s) (fun u => CodeMade s u.2 [] u.1) := by
  cases o with
  | none => exact .run_pure (.nil s)
  | some e => exact (expr_code_made (h e rfl)).run_bind fun out s₁ ho => .run_pure ho.1

/-! ## Statements -/

theorem run_loopLabel_eq {α : Type} {g : String → Coder α} {span : Span} {l : String}
    {s : Supply} : (loopLabel span (some l) >>= g).run s = (g l).run s := rfl

theorem run_loopLabel {α : Type} {g : String → Coder α} {span : Span} {l : String} {s : Supply}
    {ok : α × Supply → Prop} (h : Succeeds ((g l).run s) ok) :
    Succeeds ((loopLabel span (some l) >>= g).run s) ok := h

theorem typed_forall_mono {t u : SymbolTable} (h : t.Extends u) {o : Option Expr}
    (ho : ∀ e ∈ o, e.Typed t) : ∀ e ∈ o, e.Typed u :=
  fun e he => (ho e he).mono h

mutual
/-- Every piece of code is made for a typed part, with labels that the supply gives once. -/
theorem stmt_made {result : IntType} {loop : Option String} :
    (c : Stmt) → ∀ s : Supply, c.Typed s.symbols result → c.LoopsNamed loop →
      Succeeds ((stmt c).run s) (fun o => CodeMade s o.2 c.loops o.1)
  | .ret _ e, s, h, _ => by
      rw [stmt]
      refine (expr_code_made ⟨result, h⟩).run_bind fun out s₁ ⟨ho, hv⟩ => .run_pure ?_
      exact ho.append (.instr hv rfl)
  | .expr _ e, s, h, _ => by
      rw [stmt]
      exact (expr_code_made h).run_bind fun out s₁ ho => .run_pure ho.1
  | .ifThen _ e yes, s, h, hl => by
      rw [stmt]
      refine (expr_code_made h.1).run_bind fun out s₁ ⟨ho, τ, hv⟩ => ?_
      refine (label_made (by decide) s₁).run_bind fun finish s₂ hf => ?_
      have hg₂ := ho.grows.trans hf.grows
      refine (stmt_made yes s₂ (.mono hg₂.symbols yes h.2) hl).run_bind fun yes' s₃ hy => ?_
      exact .run_pure (.ifThen ho hv hf hy)
  | .ifElse _ e yes no, s, h, hl => by
      rw [stmt]
      refine (expr_code_made h.1).run_bind fun out s₁ ⟨ho, τ, hv⟩ => ?_
      refine (label_made (by decide) s₁).run_bind fun finish s₂ hf => ?_
      refine (label_made (by decide) s₂).run_bind fun other s₃ hother => ?_
      -- the parts are made from later supplies, whose tables have the types of the first one
      have hg₃ := (ho.grows.trans hf.grows).trans hother.grows
      refine (stmt_made yes s₃ (.mono hg₃.symbols yes h.2.1) hl.1).run_bind fun yes' s₄ hy => ?_
      have hno := Stmt.Typed.mono (hg₃.trans hy.grows).symbols no h.2.2
      refine (stmt_made no s₄ hno hl.2).run_bind fun no' s₅ hn => ?_
      exact .run_pure (.ifElse ho hv hf hother hy hn)
  | .block _ is, s, h, hl => by
      rw [stmt]
      exact items_made is s h hl
  | .breakLoop _ l, s, _, hl => by
      obtain ⟨name, rfl⟩ := Option.isSome_iff_exists.1 hl.1
      exact .run_pure (.instr trivial rfl)
  | .continueLoop _ l, s, _, hl => by
      obtain ⟨name, rfl⟩ := Option.isSome_iff_exists.1 hl.1
      exact .run_pure (.instr trivial rfl)
  | .doLoop _ l body e, s, h, hl => by
      obtain ⟨name, rfl⟩ := Option.isSome_iff_exists.1 hl.1
      rw [stmt]
      refine run_loopLabel ((expr_code_made h.2).run_bind fun out s₁ ⟨ho, τ, hv⟩ => ?_)
      have hbody := Stmt.Typed.mono ho.grows.symbols body h.1
      refine (stmt_made body s₁ hbody hl.2).run_bind fun body' s₂ hb => ?_
      exact .run_pure (.doLoop ho hv hb)
  | .whileLoop _ l e body, s, h, hl => by
      obtain ⟨name, rfl⟩ := Option.isSome_iff_exists.1 hl.1
      rw [stmt]
      refine run_loopLabel ((expr_code_made h.1).run_bind fun out s₁ ⟨ho, τ, hv⟩ => ?_)
      have hbody := Stmt.Typed.mono ho.grows.symbols body h.2
      refine (stmt_made body s₁ hbody hl.2).run_bind fun body' s₂ hb => ?_
      exact .run_pure (.whileLoop ho hv hb)
  | .forLoop _ l init e post body, s, h, hl => by
      obtain ⟨name, rfl⟩ := Option.isSome_iff_exists.1 hl.1
      obtain ⟨hi, he, hp, hbody⟩ := h
      rw [stmt]
      refine run_loopLabel ((forInit_made hi).run_bind fun init' s₁ h₁ => ?_)
      have he₁ := typed_forall_mono h₁.grows.symbols he
      refine (exitTest_made he₁).run_bind fun test s₂ h₂ => ?_
      have hg₂ := h₁.grows.trans h₂.grows
      refine (stmt_made body s₂ (.mono hg₂.symbols body hbody) hl.2).run_bind fun body' s₃ h₃ => ?_
      have hp₃ := typed_forall_mono (hg₂.trans h₃.grows).symbols hp
      refine (step_made hp₃).run_bind fun post' s₄ h₄ => .run_pure (.forLoop h₁ h₂ h₃ h₄)
  | .null _, s, _, _ => .run_pure (.nil s)
termination_by structural c => c

theorem item_made {result : IntType} {loop : Option String} :
    (i : Item) → ∀ s : Supply, i.Typed s.symbols result → i.LoopsNamed loop →
      Succeeds ((item i).run s) (fun o => CodeMade s o.2 i.loops o.1)
  | .stmt c, s, h, hl => by
      rw [item]
      exact stmt_made c s h hl
  | .decl (.var d), s, h, _ => by
      rw [item]
      exact localVar_made h
  | .decl (.prototype _), s, _, _ => .run_pure (.nil s)
  | .decl (.function _ _ _), s, _, _ => .run_pure (.nil s)
termination_by structural i => i

/-- Coding items succeeds and gives typed code with the labels of their loops. -/
theorem items_made {result : IntType} {loop : Option String} :
    (is : List Item) → ∀ s : Supply, Item.AllTyped s.symbols result is →
      Item.AllLoopsNamed loop is →
      Succeeds ((items is).run s) (fun o => CodeMade s o.2 (Item.allLoops is) o.1)
  | [], s, _, _ => .run_pure (.nil s)
  | i :: is, s, h, hl => by
      rw [items]
      refine (item_made i s h.1 hl.1).run_bind fun i' s₁ hi => ?_
      refine (items_made is s₁ (.mono hi.grows.symbols is h.2) hl.2).run_bind fun is' s₂ his =>
        .run_pure (hi.append his)
termination_by structural is => is
end

/-! ## Functions -/

/-- A checked function is in the table as a function, so its linkage is known. -/
theorem attributes_of_typeOf? {t : SymbolTable} (hc : t.Consistent) {x : String} {ps : List IntType}
    {τ : IntType} (h : t.typeOf? x = some (.function ps τ)) :
    ∃ defined global, (t.find? x).map Symbol.attributes = some (.function defined global) := by
  obtain ⟨a, ha⟩ := SymbolTable.typeOf?_eq_some h
  have := hc x _ ha
  cases a with
  | function defined global => exact ⟨defined, global, by rw [ha]; rfl⟩
  | automatic => exact this.elim
  | static init global => exact this.elim

/-- The parameters have types in the table, and a return of zero stands at the end of the body. -/
theorem function_made {h : FunHeader} {span : Span} {body : List Item} {s : Supply}
    (ht : (Decl.function h span body).Typed s.symbols) (hl : (Decl.function h span body).Labelled)
    (hc : s.symbols.Consistent) :
    Succeeds ((function h body).run s) (fun o => s.Grows o.2 ∧ o.1.Made o.2.symbols) := by
  obtain ⟨hf, hps, hbody⟩ := ht
  obtain ⟨⟨lo, hi, hgiven⟩, hnamed⟩ := hl
  obtain ⟨defined, global, hattr⟩ := attributes_of_typeOf? hc hf
  rw [function]
  refine .run_get ?_
  rw [hattr]
  refine (items_made body s hbody hnamed).run_bind fun code s₁ hcode => .run_pure ⟨hcode.grows, ?_⟩
  refine ⟨?_, ?_, ?_⟩
  · exact codeTyped_append.2 ⟨hcode.typed, by simp [Instr.WellTyped, intValue, Value.HasType]⟩
  · simpa using hcode.labels.nodup hgiven
  · intro x hx
    obtain ⟨q, hq, rfl⟩ := List.mem_map.1 hx
    exact ⟨q.type, hcode.grows.symbols _ _ (hps q hq)⟩

/-- Functions are made one after the other, each from the supply that the one before has left. -/
theorem functions_made (ds : List Decl) :
    ∀ s : Supply, (∀ d ∈ ds, d.Typed s.symbols) → (∀ d ∈ ds, d.Labelled) → s.symbols.Consistent →
      Succeeds ((functions ds).run s) (fun o => s.Grows o.2 ∧ ∀ f ∈ o.1, f.Made o.2.symbols) := by
  induction ds with
  | nil =>
      intro s _ _ _
      exact .run_pure ⟨.refl s, by simp⟩
  | cons d ds ih =>
      intro s ht hl hc
      obtain ⟨htd, htds⟩ := List.forall_mem_cons.1 ht
      obtain ⟨hld, hlds⟩ := List.forall_mem_cons.1 hl
      cases d with
      | function h span body =>
          rw [functions]
          refine (function_made htd hld hc).run_bind fun f s₁ ⟨hg, hf⟩ => ?_
          have htds₁ : ∀ d ∈ ds, d.Typed s₁.symbols := fun d hd => .mono hg.symbols (htds d hd)
          refine (ih s₁ htds₁ hlds (hg.consistent hc)).run_bind fun fs s₂ ⟨hg', hfs⟩ => .run_pure ?_
          exact ⟨hg.trans hg', List.forall_mem_cons.2 ⟨hf.mono hg'.symbols, hfs⟩⟩
      | var d => exact ih s htds hlds hc
      | prototype h => exact ih s htds hlds hc

end Coder

/-! ## Programs -/

/-- Three-address code that machine code can be made of, with the symbols that it uses. -/
structure Program.Made (p : Program) (t : SymbolTable) : Prop where
  functions : ∀ f, .function f ∈ p.topLevels → f.Made t
  consistent : t.Consistent

theorem Program.ofChecked_made {p : IntegerC.Program} {t : SymbolTable} (h : p.Checked t) :
    Succeeds (Program.ofChecked p t) (fun r => r.1.Made r.2 ∧ t.Extends r.2) := by
  refine Ensures.bind (Coder.functions_made p.decls ⟨t, 0, 0⟩ h.typed h.labelled h.consistent) ?_
  rintro ⟨fs, s⟩ ⟨hg, hfs⟩
  refine .pure ⟨⟨fun f hf => hfs f ?_, hg.consistent h.consistent⟩, hg.symbols⟩
  simpa using hf

end IntegerC.ThreeAddress
