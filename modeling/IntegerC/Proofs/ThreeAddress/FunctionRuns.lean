import IntegerC.Proofs.Compilation
import IntegerC.Proofs.ThreeAddress.StmtRuns

set_option autoImplicit false

/-! # Running the code of a function

The code of a function is the code of its body with `return 0` behind it. It follows the execution
of the body with every bound; so it returns what the body returns, and where every bound is too
small it makes more steps than any run to a `return` does.
-/

namespace IntegerC.ThreeAddress

variable {types : VarTypes} {w : World} {names : String → Prop}

/-! ## One function -/

/-- The code returns where the body returns, with the same number and with a store that agrees. -/
def Implements (w : World) (names : String → Prop) (body : List Item) (code : List Instr)
    (S : Store types) : Prop :=
  ∀ n s, (∃ s', Returns w body S n s' ∧ s'.Agree names s) ↔
    ∃ T, Runs w code (.running 0 S) (.returned n T) ∧ T.Agree names s

/-- Code that follows a body returns if control gets behind the body or to a `return` in it. -/
theorem runs_of_follows {code : List Instr} {limit : Nat} {S S' : Store types} {f : Flow}
    (h : Follows w (code ++ [.ret (intValue 0)]) names limit none (.running 0 S) code.length
      (some (f, S'))) :
    ∃ n T, f.result? = some n ∧ S'.Agree names T ∧
      Runs w (code ++ [.ret (intValue 0)]) (.running 0 S) (.returned n T) := by
  obtain ⟨T, b, hagree, hleads, hruns⟩ := h
  cases f with
  | next =>
      cases hleads
      -- control that gets behind the body meets the `return` that is added there
      have hlast : CodeAt (code ++ [.ret (intValue 0)]) code.length [.ret (intValue 0)] :=
        (CodeAt.whole _).behind (by simp)
      have hret : (Instr.ret (intValue 0)).effect w T = some (.finish 0) := rfl
      exact ⟨0, T, rfl, hagree, hruns.trans (.head (hlast.step_finish hret) (.refl _))⟩
  | ret n =>
      cases hleads
      exact ⟨n, T, rfl, hagree, hruns⟩
  | breakLoop | continueLoop =>
      obtain ⟨l, pc, hl, -⟩ := hleads
      cases hl

/-- Code that follows a body with every bound returns exactly where the body does. -/
theorem implements_of_follows {body : List Item} {code : List Instr} {S : Store types}
    (h : ∀ limit, Follows w (code ++ [.ret (intValue 0)]) names limit none (.running 0 S)
      code.length (Item.execAll w limit body S)) :
    Implements w names body (code ++ [.ret (intValue 0)]) S := by
  intro n s
  constructor
  · rintro ⟨s', ⟨limit, f, hexec, hf⟩, hs⟩
    have hfollows := h limit
    rw [hexec] at hfollows
    obtain ⟨n', T, hf', hagree, hruns⟩ := runs_of_follows hfollows
    cases hf.symm.trans hf'
    exact ⟨T, hruns, hagree.symm.trans hs⟩
  · rintro ⟨T, ⟨k, hk⟩, hs⟩
    -- with a bound above the number of steps the execution cannot give up
    have hfollows := h (k + 1)
    cases hexec : Item.execAll w (k + 1) body S with
    | none =>
        rw [hexec] at hfollows
        obtain ⟨m, pc, T', hm, hsteps⟩ := hfollows
        obtain ⟨j, e, -⟩ := hsteps.of_final hk rfl
        omega
    | some p =>
        rw [hexec] at hfollows
        obtain ⟨f, s'⟩ := p
        obtain ⟨n', T', hf, hagree, m, hm⟩ := runs_of_follows hfollows
        obtain ⟨j, -, hj⟩ := hm.of_final hk rfl
        cases hj with
        | refl _ => exact ⟨s', ⟨k + 1, f, hexec, hf⟩, hagree.trans hs⟩
        | head hstep _ => cases hstep

namespace Coder

variable {t : SymbolTable}

/-- A function is made under the name of its header, and its code follows the body from every
store. -/
theorem function_implements {h : FunHeader} {span : Span} {body : List Item} {s : Supply}
    {o : Function × Supply} (ht : (Decl.function h span body).Typed t)
    (hl : (Decl.function h span body).Labelled) (hc : t.Consistent)
    (hs : Part.AllSequenced (Item.allParts body)) (hrun : (function h body).run s = .ok o)
    (hg : Supply.Grows ⟨t, 0, 0⟩ s) (hfits : Fits t names types s o.2) :
    o.1.name = h.name ∧ ∀ (w : World) (S : Store types), Implements w names body o.1.body S := by
  have hmade := (function_made (.mono hg.symbols ht) hl (hg.consistent hc)).ok_of_eq hrun
  obtain ⟨hf, -, hbody⟩ := ht
  obtain ⟨defined, global, hattr⟩ := attributes_of_typeOf? (hg.consistent hc) (hfits.base _ _ hf)
  rw [function] at hrun
  obtain ⟨⟨s₀, s₀'⟩, h₀, hrun⟩ := run_bind_eq_ok.1 hrun
  cases h₀
  rw [hattr] at hrun
  obtain ⟨⟨code, s₁⟩, h₁, hrun⟩ := run_bind_eq_ok.1 hrun
  cases hrun
  refine ⟨rfl, fun w S => implements_of_follows fun limit => ?_⟩
  exact items_carryOut hmade.2.labels limit t _ body none s _ hbody hl.2 hs h₁ hfits (by simp) 0
    (CodeAt.whole _).left _ (Nat.zero_add _).symm S S (.refl S)

/-- The code of every definition is among the functions that are made. -/
theorem functions_found {h : FunHeader} {span : Span} {body : List Item} (ds : List Decl) :
    ∀ (s : Supply) (o : List Function × Supply), (∀ d ∈ ds, d.Typed s.symbols) →
      (∀ d ∈ ds, d.Labelled) → s.symbols.Consistent → (functions ds).run s = .ok o →
      .function h span body ∈ ds → ∃ s₁ f s₂, (function h body).run s₁ = .ok (f, s₂) ∧ f ∈ o.1 ∧
        s.Grows s₁ ∧ s₂.Grows o.2 := by
  induction ds with
  | nil =>
      intro s o _ _ _ _ hmem
      cases hmem
  | cons d ds ih =>
      intro s o ht hl hc hrun hmem
      obtain ⟨htd, htds⟩ := List.forall_mem_cons.1 ht
      obtain ⟨hld, hlds⟩ := List.forall_mem_cons.1 hl
      cases d with
      | function h' span' body' =>
          rw [functions] at hrun
          obtain ⟨⟨f, s₁⟩, h₁, hrun⟩ := run_bind_eq_ok.1 hrun
          obtain ⟨⟨fs, s₂⟩, h₂, hrun⟩ := run_bind_eq_ok.1 hrun
          cases hrun
          have hg := ((function_made htd hld hc).ok_of_eq h₁).1
          have htds₁ : ∀ d ∈ ds, d.Typed s₁.symbols := fun d hd => .mono hg.symbols (htds d hd)
          have hg' := ((functions_made ds s₁ htds₁ hlds (hg.consistent hc)).ok_of_eq h₂).1
          -- the function is made here, or with the supply that this one leaves
          rcases List.mem_cons.1 hmem with e | hmem
          · cases e
            exact ⟨s, f, s₁, h₁, List.mem_cons_self, .refl s, hg'⟩
          · obtain ⟨s₃, f', s₄, hf, hf', hg₃, hg₄⟩ := ih s₁ _ htds₁ hlds (hg.consistent hc) h₂ hmem
            exact ⟨s₃, f', s₄, hf, List.mem_cons_of_mem f hf', hg.trans hg₃, hg₄⟩
      | var d => exact ih s o htds hlds hc hrun (by simpa using hmem)
      | prototype h' => exact ih s o htds hlds hc hrun (by simpa using hmem)

end Coder

/-! ## Programs -/

/-- Of a text that passes validation code is made, and the code of every function in it whose
expressions are sequenced returns what the body of the function returns. It leaves in the variables
that are no temporaries what the body leaves in them. -/
theorem code_of_text {text : String} {ts : List Token} {tree : IntegerC.Program}
    {r : IntegerC.Program × SymbolTable} (hts : tokens text = .ok ts)
    (htree : Program.ofTokens ts = .ok tree) (hr : tree.validate [] = .ok r) :
    ∃ code symbols, Program.ofChecked r.1 r.2 = .ok (code, symbols) ∧
      ∀ h span body, .function h span body ∈ r.1.decls → Part.AllSequenced (Item.allParts body) →
        ∃ f, .function f ∈ code.topLevels ∧ f.name = h.name ∧
          ∀ (w : World) (S : Store symbols.varTypes),
            Implements w (fun x => symbols.Knows x → r.2.Knows x) body f.body S := by
  have hchecked := Program.checked_of_text hts htree hr
  obtain ⟨⟨fs, s⟩, hrun, hg, hfs⟩ := (Coder.functions_made r.1.decls ⟨r.2, 0, 0⟩ hchecked.typed
    hchecked.labelled hchecked.consistent).exists_ok
  refine ⟨⟨fs.map .function ++ (staticVars s.symbols).map .static⟩, s.symbols, ?_,
    fun h span body hmem hseq => ?_⟩
  · rw [Program.ofChecked, hrun]
    rfl
  obtain ⟨s₁, f, s₂, hf, hmemf, hg₁, hg₂⟩ := Coder.functions_found r.1.decls ⟨r.2, 0, 0⟩ _
    hchecked.typed hchecked.labelled hchecked.consistent hrun hmem
  have hfits : Fits r.2 (fun x => s.symbols.Knows x → r.2.Knows x) s.symbols.varTypes s₁ s₂ :=
    ⟨hg₁.symbols, fun x hx _ => hx, fun x hx hk => hg₁.symbols.knows (hx (hg₂.symbols.knows hk)),
      fun x τ hx => SymbolTable.varTypes_eq (hg₂.symbols x _ hx)⟩
  obtain ⟨hname, himplements⟩ := Coder.function_implements (hchecked.typed _ hmem)
    (hchecked.labelled _ hmem) hchecked.consistent hseq hf hg₁ hfits
  exact ⟨f, by simpa using hmemf, hname, himplements⟩

/-- The text of a function with a loop that can be left by `break`. -/
def loopText : String :=
  "int f(int x) \x7b do \x7b if (x == 5) break; x = x - 1; \x7d while (x); \x7d"

/-- Whether a declaration is a function whose expressions are sequenced. -/
def isSequencedFunction : Decl → Bool
  | .function _ _ body => decide (Part.AllSequenced (Item.allParts body))
  | _ => false

theorem code_of_loopText :
    ∃ ts tree r, tokens loopText = .ok ts ∧ Program.ofTokens ts = .ok tree ∧
      tree.validate [] = .ok r ∧
      (∃ h span body, .function h span body ∈ r.1.decls ∧ Part.AllSequenced (Item.allParts body)) ∧
      ∃ code symbols, Program.ofChecked r.1 r.2 = .ok (code, symbols) ∧
        ∀ h span body, .function h span body ∈ r.1.decls →
          Part.AllSequenced (Item.allParts body) →
          ∃ f, .function f ∈ code.topLevels ∧ f.name = h.name ∧
            ∀ (w : World) (S : Store symbols.varTypes),
              Implements w (fun x => symbols.Knows x → r.2.Knows x) body f.body S := by
  have h : ((tokens loopText).toOption.bind fun ts =>
      (Program.ofTokens ts).toOption.bind fun tree =>
        (tree.validate []).toOption.map fun r =>
          r.1.decls.any isSequencedFunction) = some true := by
    decide +kernel
  cases hts : tokens loopText with
  | error f =>
      rw [hts] at h
      cases h
  | ok ts =>
      cases htree : Program.ofTokens ts with
      | error f =>
          simp [hts, htree, Except.toOption] at h
      | ok tree =>
          cases hr : tree.validate [] with
          | error f =>
              simp [hts, htree, hr, Except.toOption] at h
          | ok r =>
              simp only [hts, htree, hr, Except.toOption, Option.bind_some, Option.map_some,
                Option.some.injEq, List.any_eq_true] at h
              obtain ⟨d, hd, hbody⟩ := h
              refine ⟨ts, tree, r, rfl, htree, hr, ?_, code_of_text hts htree hr⟩
              cases d with
              | function h span body => exact ⟨h, span, body, hd, of_decide_eq_true hbody⟩
              | var d => cases hbody
              | prototype h => cases hbody

end IntegerC.ThreeAddress
