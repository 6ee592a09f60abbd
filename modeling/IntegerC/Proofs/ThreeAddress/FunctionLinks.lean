import IntegerC.Proofs.Entries
import IntegerC.Proofs.ThreeAddress.FunctionTemporaries

set_option autoImplicit false

/-! # Functions and their labels

The functions of the code are those that the program defines, in the same order, with the linkage
that the table gives them. Jumps stay inside their function, and no label is set twice in all
functions together.
-/

namespace IntegerC

/-! ## Definitions -/

def Decl.definition? : Decl → Option FunHeader
  | .function f _ _ => some f
  | .var _ | .prototype _ => none

/-- If no function is defined in another one, then all functions are defined at file scope. -/
theorem Decl.definitions_of_flat {ds : List Decl} (h : ∀ d ∈ ds, d.Flat) :
    (ds.flatMap Decl.parts).filterMap Part.definition? = ds.filterMap Decl.definition? := by
  have hnone : ∀ xs : List Part, (∀ x ∈ xs, x.isFunction = false) →
      xs.filterMap Part.definition? = [] := by
    intro xs hxs
    refine List.filterMap_eq_nil_iff.2 fun x hx => ?_
    have := hxs x hx
    cases x <;> first | rfl | cases this
  induction ds with
  | nil => rfl
  | cons d ds ih =>
      obtain ⟨hd, hds⟩ := List.forall_mem_cons.1 h
      rw [List.flatMap_cons, List.filterMap_append, ih hds]
      cases d with
      | var d => rfl
      | prototype f => rfl
      | function f s body =>
          have hbody := hnone _ hd
          rw [Decl.parts, List.tail_cons] at hbody
          rw [Decl.parts, List.filterMap_cons, hbody]
          rfl

/-- Elaboration neither adds nor removes a definition, nor changes its name. -/
theorem Decl.definitions_of_elaborate {t : SymbolTable} {ds ds' : List Decl}
    (h : List.Forall₂ (Decl.Elaborates t) ds ds') :
    ds'.filterMap Decl.definition? = ds.filterMap Decl.definition? := by
  induction h with
  | nil => rfl
  | @cons d d' ds ds' hd _ ih =>
      have hdefinition : d'.definition? = d.definition? := by
        cases hd <;> rfl
      rw [List.filterMap_cons, List.filterMap_cons, ih, hdefinition]

namespace ThreeAddress

variable {t : SymbolTable} {es : List Expr} {s : Supply}

/-! ## Functions -/

/-- A function that was made for the definition `h`, against the table `t`. -/
structure Function.Links (t : SymbolTable) (h : FunHeader) (f : Function) : Prop where
  name : f.name = h.name
  linkage : ∃ σ defined, t.find? h.name = some ⟨σ, .function defined f.global⟩
  enclosed : ∀ i ∈ f.body, ∀ l ∈ i.target?, l ∈ labelsOf f.body

namespace Coder

/-- A function has the name and the linkage of its definition, and its jumps stay in it. -/
theorem function_links {h : FunHeader} {span : Span} {body : List Item} {o : Function × Supply}
    (ht : (Decl.function h span body).Typed t) (hl : (Decl.function h span body).Labelled)
    (hs : ∃ temps, s.symbols = t ++ entries temps) (he : Part.ExprsIn es (Item.allParts body))
    (hrun : (function h body).run s = .ok o) :
    o.1.Links t h ∧ ∃ temps, o.2.symbols = t ++ entries temps := by
  have htidy := function_tidy ht hl he hrun
  obtain ⟨σ, defined, global, code, hfind, -, hf⟩ := run_function hrun
  obtain ⟨temps, hs⟩ := hs
  obtain ⟨temps', hfresh⟩ := htidy.fresh
  refine ⟨⟨by rw [hf], ⟨σ, defined, ?_⟩, fun i hi l hmem => ?_⟩, temps ++ temps', ?_⟩
  · -- the entry is one of `t` and not one of a temporary
    obtain ⟨a, ha⟩ := SymbolTable.typeOf?_eq_some ht.1
    rw [hs, Table.find?_append, ha] at hfind
    rw [ha, hf]
    exact hfind
  · exact (htidy.enclosed i hi l hmem).resolve_right fun ⟨_, hname, _⟩ => by cases hname
  · rw [hfresh.adds.symbols, hs]
    simp [entries]

/-- Labels of the file are numbered through all functions, so no two functions share a label. -/
theorem functions_link (ds : List Decl) :
    ∀ (s : Supply) (o : List Function × Supply), (∀ d ∈ ds, d.Typed t) → (∀ d ∈ ds, d.Labelled) →
      (∃ temps, s.symbols = t ++ entries temps) → Part.ExprsIn es (ds.flatMap Decl.parts) →
      (functions ds).run s = .ok o →
        List.Forall₂ (Function.Links t) (ds.filterMap Decl.definition?) o.1 ∧
          StmtLabels s.labels o.2.labels (ds.flatMap Decl.loops)
            (o.1.flatMap fun f => labelsOf f.body) := by
  induction ds with
  | nil =>
      intro s o _ _ _ _ hrun
      cases hrun
      exact ⟨.nil, .of_made (.nil (Nat.le_refl _))⟩
  | cons d ds ih =>
      intro s o ht hl hs he hrun
      obtain ⟨htd, htds⟩ := List.forall_mem_cons.1 ht
      obtain ⟨hld, hlds⟩ := List.forall_mem_cons.1 hl
      rw [List.flatMap_cons, Part.exprsIn_append] at he
      cases d with
      | function h span body =>
          simp only [Decl.parts, Part.exprsIn_cons] at he
          rw [functions] at hrun
          obtain ⟨⟨f, s₁⟩, h₁, hrun⟩ := run_bind_eq_ok.1 hrun
          obtain ⟨⟨fs, s₂⟩, h₂, hrun⟩ := run_bind_eq_ok.1 hrun
          cases hrun
          obtain ⟨hf, hs₁⟩ := function_links htd hld hs he.1.2.2 h₁
          -- so far the table has only grown by temporaries
          have hext : t.Extends s.symbols := by
            obtain ⟨temps, hs⟩ := hs
            exact hs ▸ SymbolTable.extends_append _ _
          have hlabels := function_labels htd hld hext h₁
          obtain ⟨hfs, hlabels'⟩ := ih s₁ _ htds hlds hs₁ he.2 h₂
          exact ⟨.cons hf hfs, hlabels.append hlabels'⟩
      | var d => exact ih s o htds hlds hs he.2 hrun
      | prototype h => exact ih s o htds hlds hs he.2 hrun

end Coder

/-! ## Programs -/

/-- The code of a checked program is that of its functions, with the static variables of its table.
The table grows by temporaries, which are new. -/
structure Program.LinksTo (p : IntegerC.Program) (t : SymbolTable) (r : Program × SymbolTable)
    (fs : List Function) (temps : Table IntType) : Prop where
  topLevels : r.1.topLevels = fs.map .function ++ (staticVars t).map .static
  symbols : r.2 = t ++ entries temps
  unknown : ∀ x ∈ temps.names, ¬ t.Knows x
  nodup : temps.names.Nodup
  functions : List.Forall₂ (Function.Links t) (p.decls.filterMap Decl.definition?) fs
  labels : (fs.flatMap fun f => labelsOf f.body).Nodup
  named : ∀ l ∈ fs.flatMap fun f => labelsOf f.body, Named l

/-- The functions of the program are those that it defines, in their order. -/
theorem Program.ofChecked_links {p : IntegerC.Program} (h : p.Checked t) {lo hi : Nat}
    (hloops : LoopsGiven lo hi (p.decls.flatMap Decl.loops)) {r : Program × SymbolTable}
    (hr : ofChecked p t = .ok r) : ∃ fs temps, LinksTo p t r fs temps := by
  obtain ⟨⟨fs, s⟩, hfs, hr⟩ := bind_eq_ok.1 hr
  cases hr
  obtain ⟨tempss, -, hadds⟩ := Coder.functions_temporaries p.decls ⟨t, 0, 0⟩ _ h.typed h.labelled
    (.refl t) p.exprsIn_exprs hfs
  have hs : s.symbols = t ++ entries tempss.flatten := hadds.symbols
  have hself : t = t ++ entries [] := (List.append_nil t).symm
  obtain ⟨hlinks, hlabels⟩ := Coder.functions_link p.decls ⟨t, 0, 0⟩ _ h.typed h.labelled
    ⟨[], hself⟩ p.exprsIn_exprs hfs
  refine ⟨fs, tempss.flatten, ?_, hs, hadds.unknown, hadds.nodup, hlinks, hlabels.nodup hloops,
    hlabels.named hloops⟩
  rw [hs, staticVars_append_entries]

end ThreeAddress

end IntegerC
