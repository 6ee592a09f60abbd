import IntegerC.Proofs.ThreeAddress.StmtCoding
import IntegerC.Proofs.ThreeAddress.Temporaries

set_option autoImplicit false

/-! # Temporaries of functions

The temporaries of a statement are those of its expressions, in whatever order their code is laid
out, and a loop does not read one of them before it is written: whether a round is the first or a
later one, what it may read was written on the way there. The temporaries of a function belong to it
alone.
-/

namespace IntegerC

/-- The expressions of the parts, with all their parts, are in the list. -/
def Part.ExprsIn (es : List Expr) (xs : List Part) : Prop :=
  ∀ x ∈ xs, ∀ e ∈ x.exprs, e.postorder ⊆ es

theorem Part.exprsIn_append {es : List Expr} {xs ys : List Part} :
    Part.ExprsIn es (xs ++ ys) ↔ Part.ExprsIn es xs ∧ Part.ExprsIn es ys :=
  List.forall_mem_append

theorem Part.exprsIn_cons {es : List Expr} {x : Part} {xs : List Part} :
    Part.ExprsIn es (x :: xs) ↔ (∀ e ∈ x.exprs, e.postorder ⊆ es) ∧ Part.ExprsIn es xs :=
  List.forall_mem_cons

theorem Part.exprsIn_optional {es : List Expr} {o : Option Expr} :
    Part.ExprsIn es (Part.optional o) ↔ ∀ e ∈ o, e.postorder ⊆ es := by
  cases o <;> simp [Part.ExprsIn, Part.optional, Part.exprs]

/-- The expressions of a program are all in its parts. -/
theorem Program.exprsIn_exprs (p : Program) : Part.ExprsIn p.exprs p.parts := by
  intro x hx e he a ha
  exact List.mem_flatMap.2 ⟨e, List.mem_flatMap.2 ⟨x, hx, he⟩, ha⟩

namespace ThreeAddress

variable {t : SymbolTable} {es : List Expr} {loop loop' : Option String}
  {code code' test yes no body first post : List Instr} {s s₁ s₂ s₃ s₄ s' : Supply}
  {vs : List Value} {temps : Table IntType} {v dst : Value} {i : Instr}
  {finish other name : String} {result : IntType}

/-! ## Layouts -/

/-- How a supply `s` becomes `s'` and gives code that control passes through, in the loop labelled
`loop` if there is one. -/
structure TidyCode (t : SymbolTable) (es : List Expr) (loop : Option String) (s s' : Supply)
    (code : List Instr) : Prop where
  fresh : ∃ temps, Fresh t es code s s' code [] temps
  passes : ∀ whole, (labelsOf whole).Nodup → Passes whole (fun x => ¬ t.Knows x) loop code
  enclosed : Enclosed loop code

namespace TidyCode

theorem nil (s : Supply) : TidyCode t es loop s s [] :=
  ⟨⟨[], .refl s (by simp)⟩, fun _ _ => .nil, .nil⟩

theorem of_tidy (h : Tidy t es s s' code vs) : TidyCode t es loop s s' code where
  fresh := by
    obtain ⟨temps, hf⟩ := h.fresh
    exact ⟨temps, hf.relay rfl (by simp) fun _ => .inl⟩
  passes := fun whole hn => (h.readies whole hn).passes
  enclosed := h.enclosed.of_none

/-- Tidy stretches behind each other are tidy, with the temporaries of both. -/
theorem append (h : TidyCode t es loop s s₁ code) (h' : TidyCode t es loop s₁ s' code') :
    TidyCode t es loop s s' (code ++ code') where
  fresh := by
    obtain ⟨temps, hf⟩ := h.fresh
    obtain ⟨temps', hf'⟩ := h'.fresh
    exact ⟨_, hf.left.append hf'.right⟩
  passes := fun whole hn => (h.passes whole hn).append (h'.passes whole hn)
  enclosed := h.enclosed.append h'.enclosed

/-- An instruction behind the code that writes at most variables of the table. -/
theorem fresh_instr (h : Tidy t es s s' code vs) (hi : i.sources ⊆ vs)
    (hd : ∀ v ∈ i.destination?, v.Own t []) :
    ∃ temps, Fresh t es (code ++ [i]) s s' (code ++ [i]) [] temps := by
  obtain ⟨temps, hf⟩ := h.fresh
  refine ⟨temps, hf.left.relay rfl (by simp) fun j hj => ?_⟩
  rcases List.mem_append.1 hj with hj | hj
  · exact .inl hj
  · obtain rfl := List.mem_singleton.1 hj
    exact .inr ⟨fun v hv => .inl (hi hv), hd⟩

/-- The same if it may leave for a place out of the loop. -/
theorem leave (h : Tidy t es s s' code vs) (hi : i.sources ⊆ vs) (hd : i.destination? = none)
    (htarget : ∀ l ∈ i.target?, ∃ name ∈ loop, l ∈ [breakLabel name, continueLabel name]) :
    TidyCode t es loop s s' (code ++ [i]) where
  fresh := fresh_instr h hi (by simp [hd])
  passes := fun whole hn => (h.readies whole hn).leave hi hd htarget
  enclosed := h.enclosed.of_none.append (.single htarget)

theorem assign (h : Tidy t es s s' code [v]) (hd : dst.Own t []) :
    TidyCode t es loop s s' (code ++ [.copy v dst]) where
  fresh := fresh_instr h (List.Subset.refl _) (by simpa [Instr.destination?] using hd)
  passes := fun whole hn => ((h.readies whole hn).write (List.Subset.refl _) rfl).passes
  enclosed := h.enclosed.of_none.write rfl

/-- An `if` is tidy when its test is and its branch behind the test. -/
theorem ifThen (hc : Tidy t es s s₁ test [v]) (hy : TidyCode t es loop s₁ s' yes) :
    TidyCode t es loop s s' (test ++ [.jumpIfZero v finish] ++ yes ++ [.label finish]) where
  fresh := by
    obtain ⟨_, hf⟩ := hc.fresh
    obtain ⟨_, hf'⟩ := hy.fresh
    refine ⟨_, (hf.left.left.left.append hf'.right.left).relay rfl (by simp) fun i hi => ?_⟩
    simp only [List.mem_append, List.mem_cons, List.not_mem_nil, or_false] at hi ⊢
    rcases hi with ((hi | rfl) | hi) | rfl
    all_goals simp_all [Instr.sources, Instr.destination?]
  passes := fun whole hn => passes_ifThen hn (hc.readies whole hn) (hy.passes whole hn)
  enclosed := .ifThen hc.enclosed hy.enclosed

/-- The temporaries of the test and of the branches are different ones, and those of the test are
written on either way. -/
theorem ifElse (hc : Tidy t es s s₁ test [v]) (hy : TidyCode t es loop s₁ s₂ yes)
    (hno : TidyCode t es loop s₂ s' no) :
    TidyCode t es loop s s' (test ++ [.jumpIfZero v other] ++ yes ++ [.jump finish, .label other] ++
      no ++ [.label finish]) where
  fresh := by
    obtain ⟨_, hf⟩ := hc.fresh
    obtain ⟨_, hf'⟩ := hy.fresh
    obtain ⟨_, hf''⟩ := hno.fresh
    refine ⟨_, ((hf.left.left.left.left.left.append hf'.right.left.left.left).append
      hf''.right.left).relay rfl (by simp) fun i hi => ?_⟩
    simp only [List.mem_append, List.mem_cons, List.not_mem_nil, or_false] at hi ⊢
    rcases hi with ((((hi | rfl) | hi) | rfl | rfl) | hi) | rfl
    all_goals simp_all [Instr.sources, Instr.destination?]
  passes := fun whole hn =>
    passes_ifElse hn (hc.readies whole hn) (hy.passes whole hn) (hno.passes whole hn)
  enclosed := .ifElse hc.enclosed hy.enclosed hno.enclosed

theorem whileLoop (hc : Tidy t es s s₁ test [v]) (hb : TidyCode t es (some name) s₁ s' body) :
    TidyCode t es loop s s' ([.label (continueLabel name)] ++ test ++
      [.jumpIfZero v (breakLabel name)] ++ body ++
        [.jump (continueLabel name), .label (breakLabel name)]) where
  fresh := by
    obtain ⟨_, hf⟩ := hc.fresh
    obtain ⟨_, hf'⟩ := hb.fresh
    refine ⟨_, (hf.right.left.left.left.append hf'.right.left).relay rfl (by simp) fun i hi => ?_⟩
    simp only [List.mem_append, List.mem_cons, List.not_mem_nil, or_false] at hi ⊢
    rcases hi with (((rfl | hi) | rfl) | hi) | rfl | rfl
    all_goals simp_all [Instr.sources, Instr.destination?]
  passes := fun whole hn => passes_whileLoop hn (hc.readies whole hn) (hb.passes whole hn)
  enclosed := .whileLoop hc.enclosed hb.enclosed

theorem doLoop (hc : Tidy t es s s₁ test [v]) (hb : TidyCode t es (some name) s₁ s' body) :
    TidyCode t es loop s s' ([.label (startLabel name)] ++ body ++ [.label (continueLabel name)] ++
      test ++ [.jumpIfNotZero v (startLabel name), .label (breakLabel name)]) where
  fresh := by
    obtain ⟨_, hf⟩ := hc.fresh
    obtain ⟨_, hf'⟩ := hb.fresh
    refine ⟨_, (hf.right.left.append hf'.right.left.left.left).relay rfl (by simp) fun i hi => ?_⟩
    simp only [List.mem_append, List.mem_cons, List.not_mem_nil, or_false] at hi ⊢
    rcases hi with (((rfl | hi) | rfl) | hi) | rfl | rfl
    all_goals simp_all [Instr.sources, Instr.destination?]
  passes := fun whole hn => passes_doLoop hn (hc.readies whole hn) (hb.passes whole hn)
  enclosed := .doLoop hc.enclosed hb.enclosed

/-- The step is reached from the end of the body and from each `continue` in it. -/
theorem forLoop (hi : TidyCode t es loop s s₁ first) (ht : TidyCode t es (some name) s₁ s₂ test)
    (hb : TidyCode t es (some name) s₂ s₃ body) (hp : TidyCode t es none s₃ s' post) :
    TidyCode t es loop s s' (first ++ [.label (startLabel name)] ++ test ++ body ++
      [.label (continueLabel name)] ++ post ++
        [.jump (startLabel name), .label (breakLabel name)]) where
  fresh := by
    obtain ⟨_, hf₁⟩ := hi.fresh
    obtain ⟨_, hf₂⟩ := ht.fresh
    obtain ⟨_, hf₃⟩ := hb.fresh
    obtain ⟨_, hf₄⟩ := hp.fresh
    refine ⟨_, (((hf₁.left.left.left.left.left.left.append hf₂.right.left.left.left.left).append
      hf₃.right.left.left.left).append hf₄.right.left).relay rfl (by simp) fun i hi => ?_⟩
    simp only [List.mem_append, List.mem_cons, List.not_mem_nil, or_false] at hi ⊢
    rcases hi with (((((hi | rfl) | hi) | hi) | rfl) | hi) | rfl | rfl
    all_goals simp_all [Instr.sources, Instr.destination?]
  passes := fun whole hn => passes_forLoop hn (hi.passes whole hn) (ht.passes whole hn)
    (hb.passes whole hn) (hp.passes whole hn)
  enclosed := .forLoop hi.enclosed ht.enclosed hb.enclosed hp.enclosed

end TidyCode

namespace Coder

theorem expr_typed_tidy {e : Expr} {o : ExprCode × Supply} (h : e.Typed t) (he : e.postorder ⊆ es)
    (hrun : (expr e).run s = .ok o) : Tidy t es s o.2 o.1.code [o.1.value] := by
  obtain ⟨τ, hτ⟩ := h
  exact expr_tidy e s τ o hτ he hrun

theorem localVar_tidy {d : VarDecl} {o : List Instr × Supply} (h : d.Typed t)
    (he : ∀ e ∈ d.init, e.postorder ⊆ es) (hrun : (localVar d).run s = .ok o) :
    TidyCode t es loop s o.2 o.1 := by
  rw [localVar] at hrun
  split at hrun
  · rename_i e hs hd
    obtain ⟨⟨out, s₁⟩, h₁, hrun⟩ := run_bind_eq_ok.1 hrun
    cases hrun
    obtain ⟨hx, hτ⟩ := h hs
    exact .assign (expr_tidy e s d.type _ (hτ e hd) (he e hd) h₁) (own_of_typeOf? hx)
  · cases hrun
    exact .nil s

theorem forInit_tidy {i : ForInit} {o : List Instr × Supply} (h : i.Typed t)
    (he : Part.ExprsIn es i.parts) (hrun : (forInit i).run s = .ok o) :
    TidyCode t es loop s o.2 o.1 := by
  cases i with
  | nothing =>
      cases hrun
      exact .nil s
  | decl d =>
      refine localVar_tidy h (fun e hd => he _ List.mem_cons_self e ?_) hrun
      simpa [Part.exprs] using hd
  | expr e =>
      obtain ⟨⟨out, s₁⟩, h₁, hrun⟩ := run_bind_eq_ok.1 hrun
      cases hrun
      exact .of_tidy (expr_typed_tidy h (he _ List.mem_cons_self e List.mem_cons_self) h₁)

theorem exitTest_tidy {c : Option Expr} {o : List Instr × Supply} (h : ∀ e ∈ c, e.Typed t)
    (he : ∀ e ∈ c, e.postorder ⊆ es) (hrun : (exitTest (breakLabel name) c).run s = .ok o) :
    TidyCode t es (some name) s o.2 o.1 := by
  cases c with
  | none =>
      cases hrun
      exact .nil s
  | some e =>
      obtain ⟨⟨out, s₁⟩, h₁, hrun⟩ := run_bind_eq_ok.1 hrun
      cases hrun
      refine .leave (expr_typed_tidy (h e rfl) (he e rfl) h₁) (List.Subset.refl _) rfl ?_
      simp [Instr.target?]

theorem step_tidy {c : Option Expr} {o : List Instr × Supply} (h : ∀ e ∈ c, e.Typed t)
    (he : ∀ e ∈ c, e.postorder ⊆ es) (hrun : (step c).run s = .ok o) :
    TidyCode t es loop s o.2 o.1 := by
  cases c with
  | none =>
      cases hrun
      exact .nil s
  | some e =>
      obtain ⟨⟨out, s₁⟩, h₁, hrun⟩ := run_bind_eq_ok.1 hrun
      cases hrun
      exact .of_tidy (expr_typed_tidy (h e rfl) (he e rfl) h₁)

theorem jump_tidy {l : String} (h : ∃ name ∈ loop, l ∈ [breakLabel name, continueLabel name]) :
    TidyCode t es loop s s [.jump l] := by
  have hnothing : Tidy t es s s [] [] := .refl s (by simp)
  exact .leave hnothing (List.Subset.refl _) rfl (by simpa [Instr.target?] using h)

/-! ## Statements -/

mutual
/-- By induction on the statement: each case is laid out as one of the lemmas above. -/
theorem stmt_tidy :
    (c : Stmt) → ∀ (loop : Option String) (s : Supply) (o : List Instr × Supply),
      c.Typed t result → c.LoopsNamed loop → Part.ExprsIn es c.parts →
        (stmt c).run s = .ok o → TidyCode t es loop s o.2 o.1
  | .ret _ e, loop, s, o, h, _, he, hrun => by
      simp only [Stmt.parts, Part.exprsIn_cons] at he
      rw [stmt] at hrun
      obtain ⟨⟨out, s₁⟩, h₁, hrun⟩ := run_bind_eq_ok.1 hrun
      cases hrun
      refine .leave (expr_tidy e s result _ h (he.2.1 e List.mem_cons_self) h₁)
        (List.Subset.refl _) rfl ?_
      simp [Instr.target?]
  | .expr _ e, loop, s, o, h, _, he, hrun => by
      simp only [Stmt.parts, Part.exprsIn_cons] at he
      rw [stmt] at hrun
      obtain ⟨⟨out, s₁⟩, h₁, hrun⟩ := run_bind_eq_ok.1 hrun
      cases hrun
      exact .of_tidy (expr_typed_tidy h (he.2.1 e List.mem_cons_self) h₁)
  | .ifThen _ e yes, loop, s, o, h, hl, he, hrun => by
      simp only [Stmt.parts, Part.exprsIn_cons] at he
      rw [stmt] at hrun
      obtain ⟨⟨out, s₁⟩, h₁, hrun⟩ := run_bind_eq_ok.1 hrun
      obtain ⟨⟨finish, s₂⟩, h₂, hrun⟩ := run_bind_eq_ok.1 hrun
      obtain ⟨⟨yes', s₃⟩, h₃, hrun⟩ := run_bind_eq_ok.1 hrun
      cases hrun
      have hc := expr_typed_tidy h.1 (he.2.1 e List.mem_cons_self) h₁
      exact .ifThen (hc.of_symbols (run_label h₂)) (stmt_tidy yes loop s₂ _ h.2 hl he.2.2 h₃)
  | .ifElse _ e yes no, loop, s, o, h, hl, he, hrun => by
      simp only [Stmt.parts, Part.exprsIn_cons, Part.exprsIn_append] at he
      rw [stmt] at hrun
      obtain ⟨⟨out, s₁⟩, h₁, hrun⟩ := run_bind_eq_ok.1 hrun
      obtain ⟨⟨finish, s₂⟩, h₂, hrun⟩ := run_bind_eq_ok.1 hrun
      obtain ⟨⟨other, s₃⟩, h₃, hrun⟩ := run_bind_eq_ok.1 hrun
      obtain ⟨⟨yes', s₄⟩, h₄, hrun⟩ := run_bind_eq_ok.1 hrun
      obtain ⟨⟨no', s₅⟩, h₅, hrun⟩ := run_bind_eq_ok.1 hrun
      cases hrun
      have hc := expr_typed_tidy h.1 (he.2.1 e List.mem_cons_self) h₁
      exact .ifElse (hc.of_symbols ((run_label h₃).trans (run_label h₂)))
        (stmt_tidy yes loop s₃ _ h.2.1 hl.1 he.2.2.1 h₄)
        (stmt_tidy no loop s₄ _ h.2.2 hl.2 he.2.2.2 h₅)
  | .block _ is, loop, s, o, h, hl, he, hrun => by
      simp only [Stmt.parts, Part.exprsIn_cons] at he
      rw [stmt] at hrun
      exact items_tidy is loop s o h hl he.2 hrun
  | .breakLoop _ l, loop, s, o, _, hl, _, hrun => by
      obtain ⟨hsome, rfl⟩ := hl
      obtain ⟨name, rfl⟩ := Option.isSome_iff_exists.1 hsome
      cases hrun
      exact jump_tidy ⟨name, rfl, by simp⟩
  | .continueLoop _ l, loop, s, o, _, hl, _, hrun => by
      obtain ⟨hsome, rfl⟩ := hl
      obtain ⟨name, rfl⟩ := Option.isSome_iff_exists.1 hsome
      cases hrun
      exact jump_tidy ⟨name, rfl, by simp⟩
  | .doLoop _ l body e, loop, s, o, h, hl, he, hrun => by
      obtain ⟨name, rfl⟩ := Option.isSome_iff_exists.1 hl.1
      simp only [Stmt.parts, Part.exprsIn_cons, Part.exprsIn_append] at he
      rw [stmt, run_loopLabel_eq] at hrun
      obtain ⟨⟨out, s₁⟩, h₁, hrun⟩ := run_bind_eq_ok.1 hrun
      obtain ⟨⟨body', s₂⟩, h₂, hrun⟩ := run_bind_eq_ok.1 hrun
      cases hrun
      exact .doLoop (expr_typed_tidy h.2 (he.2.2.2.1 e List.mem_cons_self) h₁)
        (stmt_tidy body (some name) s₁ _ h.1 hl.2 he.2.2.1 h₂)
  | .whileLoop _ l e body, loop, s, o, h, hl, he, hrun => by
      obtain ⟨name, rfl⟩ := Option.isSome_iff_exists.1 hl.1
      simp only [Stmt.parts, Part.exprsIn_cons] at he
      rw [stmt, run_loopLabel_eq] at hrun
      obtain ⟨⟨out, s₁⟩, h₁, hrun⟩ := run_bind_eq_ok.1 hrun
      obtain ⟨⟨body', s₂⟩, h₂, hrun⟩ := run_bind_eq_ok.1 hrun
      cases hrun
      exact .whileLoop (expr_typed_tidy h.1 (he.2.2.1 e List.mem_cons_self) h₁)
        (stmt_tidy body (some name) s₁ _ h.2 hl.2 he.2.2.2 h₂)
  | .forLoop _ l init e post body, loop, s, o, h, hl, he, hrun => by
      obtain ⟨name, rfl⟩ := Option.isSome_iff_exists.1 hl.1
      obtain ⟨hi, htest, hpost, hbody⟩ := h
      simp only [Stmt.parts, Part.exprsIn_cons, Part.exprsIn_append, Part.exprsIn_optional] at he
      obtain ⟨-, -, hei, hetest, hepost, hebody⟩ := he
      rw [stmt, run_loopLabel_eq] at hrun
      obtain ⟨⟨init', s₁⟩, h₁, hrun⟩ := run_bind_eq_ok.1 hrun
      obtain ⟨⟨test, s₂⟩, h₂, hrun⟩ := run_bind_eq_ok.1 hrun
      obtain ⟨⟨body', s₃⟩, h₃, hrun⟩ := run_bind_eq_ok.1 hrun
      obtain ⟨⟨post', s₄⟩, h₄, hrun⟩ := run_bind_eq_ok.1 hrun
      cases hrun
      exact .forLoop (forInit_tidy hi hei h₁) (exitTest_tidy htest hetest h₂)
        (stmt_tidy body (some name) s₂ _ hbody hl.2 hebody h₃) (step_tidy hpost hepost h₄)
  | .null _, loop, s, o, _, _, _, hrun => by
      cases hrun
      exact .nil s
termination_by structural c => c

theorem item_tidy :
    (i : Item) → ∀ (loop : Option String) (s : Supply) (o : List Instr × Supply),
      i.Typed t result → i.LoopsNamed loop → Part.ExprsIn es i.parts →
        (item i).run s = .ok o → TidyCode t es loop s o.2 o.1
  | .stmt c, loop, s, o, h, hl, he, hrun => by
      rw [item] at hrun
      exact stmt_tidy c loop s o h hl he hrun
  | .decl (.var d), loop, s, o, h, _, he, hrun => by
      rw [item] at hrun
      refine localVar_tidy h (fun e hd => he _ List.mem_cons_self e ?_) hrun
      simpa [Part.exprs] using hd
  | .decl (.prototype _), loop, s, o, _, _, _, hrun => by
      cases hrun
      exact .nil s
  | .decl (.function _ _ _), loop, s, o, _, _, _, hrun => by
      cases hrun
      exact .nil s
termination_by structural i => i

theorem items_tidy :
    (is : List Item) → ∀ (loop : Option String) (s : Supply) (o : List Instr × Supply),
      Item.AllTyped t result is → Item.AllLoopsNamed loop is →
        Part.ExprsIn es (Item.allParts is) → (items is).run s = .ok o →
          TidyCode t es loop s o.2 o.1
  | [], loop, s, o, _, _, _, hrun => by
      cases hrun
      exact .nil s
  | i :: is, loop, s, o, h, hl, he, hrun => by
      rw [Item.allParts, Part.exprsIn_append] at he
      rw [items] at hrun
      obtain ⟨⟨i', s₁⟩, h₁, hrun⟩ := run_bind_eq_ok.1 hrun
      obtain ⟨⟨is', s₂⟩, h₂, hrun⟩ := run_bind_eq_ok.1 hrun
      cases hrun
      exact (item_tidy i loop s _ h.1 hl.1 he.1 h₁).append
        (items_tidy is loop s₁ _ h.2 hl.2 he.2 h₂)
termination_by structural is => is
end

end Coder

/-! ## Functions -/

/-- The temporaries of code that control enters at its beginning only. -/
theorem TidyCode.writtenFirst (h : TidyCode t es none s s' code) (hn : (labelsOf code).Nodup)
    {x : String} (hx : ¬ t.Knows x) : WrittenFirst code x := by
  have hsafe : ∀ n, Safe code (fun x => ¬ t.Knows x) n 0 [] := by
    intro n
    refine h.passes code hn n 0 [] (CodeAt.whole _) (fun _ hname => by cases hname) ?_
    -- there is nothing behind the code
    cases n with
    | zero => trivial
    | succ n =>
        intro i hi
        simp at hi
  exact writtenFirst_of_safe hsafe hx

def Function.mentions (f : Function) : List String :=
  f.params ++ f.body.flatMap fun i => i.reads ++ i.writes

/-- What holds of a function that was made with the temporaries `temps`, for the table `t` and
expressions that are in `es`. -/
structure Function.Temporaries (t : SymbolTable) (es : List Expr) (f : Function)
    (temps : Table IntType) : Prop where
  held : ∀ e ∈ temps, Holds es f.body e.1 e.2
  params : ∀ x ∈ f.params, t.Knows x
  own : ∀ i ∈ f.body, i.Own t temps.names
  writtenFirst : ∀ x ∈ temps.names, WrittenFirst f.body x

/-- What a function mentions is a name of the table or one of its own temporaries. -/
theorem Function.Temporaries.mentions {f : Function} (h : f.Temporaries t es temps) :
    ∀ x ∈ f.mentions, t.Knows x ∨ x ∈ temps.names := by
  intro x hx
  rcases List.mem_append.1 hx with hx | hx
  · exact .inl (h.params x hx)
  · obtain ⟨i, hi, hx⟩ := List.mem_flatMap.1 hx
    rcases List.mem_append.1 hx with hx | hx
    · exact (h.own i hi).reads x hx
    · exact (h.own i hi).writes x hx

theorem Function.mentions_of_temporaries {fs : List Function} {tempss : List (Table IntType)}
    (h : List.Forall₂ (Function.Temporaries t es) fs tempss) :
    ∀ f ∈ fs, ∀ x ∈ f.mentions, t.Knows x ∨ x ∈ Table.names tempss.flatten := by
  induction h with
  | nil => simp
  | cons hf _ ih =>
      simp only [List.flatten_cons, names_append, List.mem_append]
      refine List.forall_mem_cons.2 ⟨fun x hx => ?_, fun f hmem x hx => ?_⟩
      · exact (hf.mentions x hx).imp_right .inl
      · exact (ih f hmem x hx).imp_right .inr

/-- Functions with different temporaries have in common only variables of the table. -/
theorem Function.pairwise_of_temporaries {fs : List Function} {tempss : List (Table IntType)}
    (h : List.Forall₂ (Function.Temporaries t es) fs tempss)
    (hn : (Table.names tempss.flatten).Nodup) :
    fs.Pairwise fun f g => ∀ x ∈ f.mentions, x ∈ g.mentions → t.Knows x := by
  induction h with
  | nil => exact .nil
  | cons hf hfs ih =>
      rw [List.flatten_cons, names_append, List.nodup_append] at hn
      obtain ⟨-, hn, hapart⟩ := hn
      refine .cons (fun g hg x hx hx' => ?_) (ih hn)
      by_contra hk
      have hown := (hf.mentions x hx).resolve_left hk
      exact hapart x hown x ((mentions_of_temporaries hfs g hg x hx').resolve_left hk) rfl

namespace Coder

/-- A function of a checked program is its code with a return at the end. -/
theorem run_function {h : FunHeader} {body : List Item} {o : Function × Supply}
    (hrun : (function h body).run s = .ok o) :
    ∃ σ defined global code, s.symbols.find? h.name = some ⟨σ, .function defined global⟩ ∧
      (items body).run s = .ok (code, o.2) ∧
      o.1 = ⟨h.name, global, h.params.map Param.name, code ++ [.ret (intValue 0)]⟩ := by
  rw [function] at hrun
  obtain ⟨⟨s₀, s₀'⟩, h₀, hrun⟩ := run_bind_eq_ok.1 hrun
  cases h₀
  split at hrun
  · rename_i defined global hattr
    obtain ⟨⟨code, s₁⟩, h₁, hrun⟩ := run_bind_eq_ok.1 hrun
    cases hrun
    obtain ⟨⟨σ, a⟩, hfind, rfl⟩ := Option.map_eq_some_iff.1 hattr
    exact ⟨σ, defined, global, code, hfind, h₁, rfl⟩
  · cases hrun

/-- The code of a function is tidy, with the return behind it. -/
theorem function_tidy {h : FunHeader} {span : Span} {body : List Item} {o : Function × Supply}
    (ht : (Decl.function h span body).Typed t) (hl : (Decl.function h span body).Labelled)
    (he : Part.ExprsIn es (Item.allParts body)) (hrun : (function h body).run s = .ok o) :
    TidyCode t es none s o.2 o.1.body := by
  obtain ⟨σ, defined, global, code, -, hcode, hf⟩ := run_function hrun
  have hreturn : TidyCode t es none o.2 o.2 [.ret (intValue 0)] := by
    have hzero : Tidy t es o.2 o.2 [] [intValue 0] :=
      .refl o.2 (by simp [intValue, Value.own_constant])
    exact .leave hzero (List.Subset.refl _) rfl (by simp [Instr.target?])
  rw [hf]
  exact (items_tidy body none s _ ht.2.2 hl.2 he hcode).append hreturn

theorem function_labels {h : FunHeader} {span : Span} {body : List Item} {o : Function × Supply}
    (ht : (Decl.function h span body).Typed t) (hl : (Decl.function h span body).Labelled)
    (hext : t.Extends s.symbols) (hrun : (function h body).run s = .ok o) :
    StmtLabels s.labels o.2.labels (Item.allLoops body) (labelsOf o.1.body) := by
  obtain ⟨σ, defined, global, code, -, hcode, hf⟩ := run_function hrun
  rw [hf]
  simpa using ((items_made body s (.mono hext body ht.2.2) hl.2).ok_of_eq hcode).labels

/-- The names that a function adds to the table are its temporaries, and it mentions no others that
the table did not know. -/
theorem function_temporaries {h : FunHeader} {span : Span} {body : List Item}
    {o : Function × Supply} (ht : (Decl.function h span body).Typed t)
    (hl : (Decl.function h span body).Labelled) (hext : t.Extends s.symbols)
    (he : Part.ExprsIn es (Item.allParts body)) (hrun : (function h body).run s = .ok o) :
    ∃ temps, o.1.Temporaries t es temps ∧ s.Adds o.2 temps := by
  have htidy := function_tidy ht hl he hrun
  obtain ⟨temps, hf⟩ := htidy.fresh
  refine ⟨temps, ⟨hf.held, fun x hx => ?_, hf.instrs, fun x hx => ?_⟩, hf.adds⟩
  · obtain ⟨σ, defined, global, code, -, -, hfun⟩ := run_function hrun
    rw [hfun] at hx
    obtain ⟨q, hq, rfl⟩ := List.mem_map.1 hx
    exact SymbolTable.knows_of_typeOf? (ht.2.1 q hq)
  · obtain ⟨lo, hi, hgiven⟩ := hl.1
    have hn := (function_labels ht hl hext hrun).nodup hgiven
    exact htidy.writtenFirst hn fun hk => hf.adds.unknown x hx (hext.knows hk)

/-- Functions get temporaries one after the other, so those of different functions are different. -/
theorem functions_temporaries (ds : List Decl) :
    ∀ (s : Supply) (o : List Function × Supply), (∀ d ∈ ds, d.Typed t) →
      (∀ d ∈ ds, d.Labelled) → t.Extends s.symbols →
      Part.ExprsIn es (ds.flatMap Decl.parts) → (functions ds).run s = .ok o →
        ∃ tempss, List.Forall₂ (Function.Temporaries t es) o.1 tempss ∧
          s.Adds o.2 tempss.flatten := by
  induction ds with
  | nil =>
      intro s o _ _ _ _ hrun
      cases hrun
      exact ⟨[], .nil, .refl s⟩
  | cons d ds ih =>
      intro s o ht hl hext he hrun
      obtain ⟨htd, htds⟩ := List.forall_mem_cons.1 ht
      obtain ⟨hld, hlds⟩ := List.forall_mem_cons.1 hl
      rw [List.flatMap_cons, Part.exprsIn_append] at he
      cases d with
      | function h span body =>
          simp only [Decl.parts, Part.exprsIn_cons] at he
          rw [functions] at hrun
          obtain ⟨⟨f, s₁⟩, h₁, hrun⟩ := run_bind_eq_ok.1 hrun
          obtain ⟨⟨fs, s₂⟩, h₂, hrun⟩ := run_bind_eq_ok.1 hrun
          cases hrun
          obtain ⟨temps, hf, hadds⟩ := function_temporaries htd hld hext he.1.2.2 h₁
          obtain ⟨tempss, hfs, hadds'⟩ := ih s₁ _ htds hlds (hext.trans hadds.extended) he.2 h₂
          exact ⟨temps :: tempss, .cons hf hfs, hadds.append hadds'⟩
      | var d => exact ih s o htds hlds hext he.2 hrun
      | prototype h => exact ih s o htds hlds hext he.2 hrun

end Coder

/-! ## Programs -/

theorem staticVars_append_entries (t : SymbolTable) (temps : Table IntType) :
    staticVars (t ++ entries temps) = staticVars t := by
  simp [staticVars, entries, StaticVar.ofSymbol?, Symbol.automatic, List.filterMap_map]

/-- Making code of what passes validation, with any table that keeps the types found there, adds
temporaries at the end of the table, which are new, and changes no other entry. Each of them is
mentioned by one function only: it holds the value of an expression of its type there, is not read
by an instruction that writes it, and is written before it is read on every path from the entry.
Code is made if the kinds of the entries of the table fit their types. -/
theorem Program.temporaries_of_text {text : String} {ts : List Token} {tree p : IntegerC.Program}
    {t₀ t₁ t : SymbolTable} (hts : tokens text = .ok ts) (htree : Program.ofTokens ts = .ok tree)
    (hp : tree.validate t₀ = .ok (p, t₁)) (ht : t₁.Extends t) :
    Ensures (ofChecked p t) (fun _ => ¬ t.Consistent) fun r =>
      ∃ fs tempss, r.1.topLevels = fs.map .function ++ (staticVars t).map .static ∧
        r.2 = t ++ entries tempss.flatten ∧
        (∀ x ∈ Table.names tempss.flatten, t.find? x = none) ∧
        (Table.names tempss.flatten).Nodup ∧
        List.Forall₂ (Function.Temporaries t p.exprs) fs tempss ∧
        fs.Pairwise fun f g => ∀ x ∈ f.mentions, x ∈ g.mentions → t.Knows x := by
  obtain ⟨htyped, hlabelled⟩ := IntegerC.Program.typed_of_validate hts htree hp
  have htyped : ∀ d ∈ p.decls, d.Typed t := fun d hd => (htyped d hd).mono ht
  cases hrun : ofChecked p t with
  | error f =>
      intro hc
      exact (ofChecked_made ⟨htyped, hlabelled, hc⟩).bad_of_eq hrun
  | ok r =>
      obtain ⟨⟨fs, s⟩, hfs, hr⟩ := bind_eq_ok.1 hrun
      cases hr
      obtain ⟨tempss, htemps, hadds⟩ := Coder.functions_temporaries p.decls ⟨t, 0, 0⟩ _ htyped
        hlabelled (.refl t) p.exprsIn_exprs hfs
      have hs : s.symbols = t ++ entries tempss.flatten := hadds.symbols
      refine ⟨fs, tempss, ?_, hs, fun x hx => ?_, hadds.nodup, htemps,
        Function.pairwise_of_temporaries htemps hadds.nodup⟩
      · rw [hs, staticVars_append_entries]
      · exact SymbolTable.typeOf?_eq_none.1 (Decidable.not_not.1 (hadds.unknown x hx))

/-- The text of two functions, one with a loop that can be left in the middle and with a variable
that is called like a temporary once it is resolved. -/
def temporariesText : String :=
  "int f(long n) \x7b int tmp = 1; while (n && tmp) \x7b if (n == 5) break; " ++
    "tmp = n ? 2 : tmp; \x7d return tmp; \x7d int g(int a) \x7b return f(a) + 1; \x7d"

theorem Program.temporaries_of_temporariesText :
    ∃ ts tree p t₁, ∃ t : SymbolTable, tokens temporariesText = .ok ts ∧
      Program.ofTokens ts = .ok tree ∧ tree.validate [] = .ok (p, t₁) ∧
      t = t₁.put "tmp.2" (.automatic .long) ∧ t₁.Extends t ∧
      (ofChecked p t).toOption.map (fun r => r.2.names.drop t.names.length) =
        some ["tmp.0", "tmp.3", "tmp.4", "tmp.5", "tmp.6", "tmp.7", "tmp.8"] ∧
      Ensures (ofChecked p t) (fun _ => ¬ t.Consistent) fun r =>
        ∃ fs tempss, r.1.topLevels = fs.map .function ++ (staticVars t).map .static ∧
          r.2 = t ++ entries tempss.flatten ∧
          (∀ x ∈ Table.names tempss.flatten, t.find? x = none) ∧
          (Table.names tempss.flatten).Nodup ∧
          List.Forall₂ (Function.Temporaries t p.exprs) fs tempss ∧
          fs.Pairwise fun f g => ∀ x ∈ f.mentions, x ∈ g.mentions → t.Knows x := by
  have hchars : temporariesText.toList = _ :=
    toList_append_eq String.toList_ofList String.toList_ofList
  have h : ((tokens temporariesText).toOption.bind fun ts =>
      (Program.ofTokens ts).toOption.bind fun tree => (tree.validate []).toOption.bind fun r =>
        some ((r.2.find? "tmp.2").isNone,
          (ofChecked r.1 (r.2.put "tmp.2" (.automatic .long))).toOption.map fun r' =>
            r'.2.names.drop (r.2.put "tmp.2" (.automatic .long)).names.length)) =
      some (true,
        some ["tmp.0", "tmp.3", "tmp.4", "tmp.5", "tmp.6", "tmp.7", "tmp.8"]) := by
    rw [tokens, hchars]
    decide +kernel
  obtain ⟨ts, hts, h⟩ := toOption_bind_eq_some.1 h
  obtain ⟨tree, htree, h⟩ := toOption_bind_eq_some.1 h
  obtain ⟨⟨p, t₁⟩, hp, h⟩ := toOption_bind_eq_some.1 h
  simp only [Option.some.injEq, Prod.mk.injEq] at h
  have ht : t₁.Extends (t₁.put "tmp.2" (.automatic .long)) :=
    SymbolTable.extends_put (.inl (SymbolTable.typeOf?_eq_none.2 (Option.isNone_iff_eq_none.1 h.1)))
  exact ⟨ts, tree, p, t₁, _, hts, htree, hp, rfl, ht, h.2, temporaries_of_text hts htree hp ht⟩

end ThreeAddress

end IntegerC
