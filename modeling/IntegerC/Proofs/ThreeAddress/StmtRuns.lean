import IntegerC.Proofs.Execution
import IntegerC.Proofs.ThreeAddress.ExprRuns
import IntegerC.Proofs.ThreeAddress.StmtCoding

set_option autoImplicit false

/-! # Running the code of a statement

The code of a checked statement follows the statement: where the statement hands control on, the
code reaches its own end or the label for it, with a store that agrees on the variables of the
source, and where the statement gives up after `limit` rounds of a loop, the code has made at least
`limit` steps without returning. Since steps are determined, the code of a function returns what its
body returns, and returns only if its body does.
-/

namespace IntegerC.ThreeAddress

variable {types : VarTypes} {w : World} {code : List Instr} {names : String → Prop} {limit : Nat}
  {loop : Option String}

/-! ## Following an execution -/

/-- Where code that ends at `stop` is when control goes the way of `f` with the store `T`. -/
def Leads (code : List Instr) (loop : Option String) (stop : Nat) (T : Store types) :
    Flow → State types → Prop
  | .next, a => a = .running stop T
  | .breakLoop, a => ∃ l pc, loop = some l ∧ position? code (breakLabel l) = some pc ∧
      a = .running pc T
  | .continueLoop, a => ∃ l pc, loop = some l ∧ position? code (continueLabel l) = some pc ∧
      a = .running pc T
  | .ret n, a => a = .returned n T

/-- Code in the loop `loop` that ends at `stop` runs from `a` as an execution with the bound `limit`
and the result `r` goes. -/
def Follows (w : World) (code : List Instr) (names : String → Prop) (limit : Nat)
    (loop : Option String) (a : State types) (stop : Nat) : Option (Flow × Store types) → Prop
  | none => ∃ n pc T, limit ≤ n ∧ Steps w code n a (.running pc T)
  | some (f, S) => ∃ T b, S.Agree names T ∧ Leads code loop stop T f b ∧ Runs w code a b

namespace Follows

variable {a b : State types} {stop stop' : Nat} {r : Option (Flow × Store types)}
  {S T : Store types}

/-- Steps may be made before. -/
theorem of_runs (h : Runs w code a b) (h' : Follows w code names limit loop b stop r) :
    Follows w code names limit loop a stop r := by
  match r with
  | none =>
      obtain ⟨m, hm⟩ := h
      obtain ⟨n, pc, T, hn, hs⟩ := h'
      exact ⟨m + n, pc, T, by omega, hm.trans hs⟩
  | some (f, S) =>
      obtain ⟨T, c, hagree, hleads, hruns⟩ := h'
      exact ⟨T, c, hagree, hleads, h.trans hruns⟩

theorem next (hagree : S.Agree names T) (h : Runs w code a (.running stop T)) :
    Follows w code names limit loop a stop (some (.next, S)) :=
  ⟨T, _, hagree, rfl, h⟩

/-- The code may go on from its end to another place. -/
theorem move (h : Follows w code names limit loop a stop r)
    (hstop : ∀ T : Store types, Runs w code (.running stop T) (.running stop' T)) :
    Follows w code names limit loop a stop' r := by
  match r with
  | none => exact h
  | some (f, S) =>
      obtain ⟨T, b, hagree, hleads, hruns⟩ := h
      cases f with
      | next =>
          cases hleads
          exact ⟨T, _, hagree, rfl, hruns.trans (hstop T)⟩
      | breakLoop | continueLoop | ret n => exact ⟨T, b, hagree, hleads, hruns⟩

end Follows

/-! ## Loops -/

/-- The same for a round of a loop that begins at `head`. A round that is followed by another one
takes at least one step. -/
def RoundFollows (w : World) (code : List Instr) (names : String → Prop) (limit : Nat)
    (loop : Option String) (T : Store types) (head stop : Nat) :
    Option (Option Flow × Store types) → Prop
  | none => Follows w code names limit loop (.running head T) stop none
  | some (none, S) => ∃ n T', S.Agree names T' ∧ 0 < n ∧
      Steps w code n (.running head T) (.running head T')
  | some (some f, S) => Follows w code names limit loop (.running head T) stop (some (f, S))

/-- Code that follows every round follows the loop. -/
theorem rounds_follow {round : Store types → Option (Option Flow × Store types)} {head stop : Nat}
    (hround : ∀ S T, S.Agree names T →
      RoundFollows w code names limit loop T head stop (round S)) :
    ∀ k ≤ limit, ∀ S T, S.Agree names T →
      Follows w code names k loop (.running head T) stop (rounds round k S) := by
  intro k
  -- on the bound; the induction hypothesis is for the rounds behind the first one
  induction k with
  -- no round is left, and no step is asked for
  | zero => exact fun _ S T _ => ⟨0, head, T, Nat.le_refl 0, .refl _⟩
  | succ k ih =>
      intro hk S T hagree
      have h := hround S T hagree
      rw [rounds]
      cases hr : round S with
      | none =>
          rw [hr] at h
          obtain ⟨n, pc, T', hn, hs⟩ := h
          exact ⟨n, pc, T', by omega, hs⟩
      | some p =>
          rw [hr] at h
          obtain ⟨f, S'⟩ := p
          cases f with
          | some f => exact h
          | none =>
              obtain ⟨n, T', hagree', hn, hs⟩ := h
              have hrest := ih (by omega) S' T' hagree'
              simp only
              -- the steps of this round make up for the round that the bound counts
              cases hrest' : rounds round k S' with
              | none =>
                  rw [hrest'] at hrest
                  obtain ⟨m, pc, T'', hm, hs'⟩ := hrest
                  exact ⟨n + m, pc, T'', by omega, hs.trans hs'⟩
              | some p =>
                  rw [hrest'] at hrest
                  obtain ⟨T'', b, hagree'', hleads, m, hs'⟩ := hrest
                  exact ⟨T'', b, hagree'', hleads, n + m, hs.trans hs'⟩

variable {l : String} {body : Action types} {head first last again out stop : Nat}

/-- A loop that tests its condition first. Its body stands from `first` to `last`, and from `again`
on the loop goes on if the body asks for it. -/
theorem testFirst_follows {c post : Option Expr}
    (htest : ∀ S T : Store types, S.Agree names T → ∃ n T',
      (holdsIn w c S).2.Agree names T' ∧ 0 < n ∧ Steps w code n (.running head T)
        (.running (if (holdsIn w c S).1 then first else out) T'))
    (hbody : ∀ S T, S.Agree names T →
      Follows w code names limit (some l) (.running first T) last (body S))
    (hlast : ∀ S T : Store types, S.Agree names T → ∃ T', (stepIn w post S).Agree names T' ∧
      Runs w code (.running last T) (.running head T'))
    (hagain : ∀ S T : Store types, S.Agree names T → ∃ T', (stepIn w post S).Agree names T' ∧
      Runs w code (.running again T) (.running head T'))
    (hcontinue : position? code (continueLabel l) = some again)
    (hbreak : position? code (breakLabel l) = some out)
    (hout : ∀ T : Store types, Runs w code (.running out T) (.running stop T))
    (S T : Store types) (hagree : S.Agree names T) :
    RoundFollows w code names limit loop T head stop (testFirst w c post body S) := by
  obtain ⟨n, T₁, hagree₁, hn, hs⟩ := htest S T hagree
  rw [testFirst]
  -- only the answer and the store of the test matter from here on
  generalize holdsIn w c S = p at *
  obtain ⟨go, S₁⟩ := p
  have h := hbody S₁ T₁ hagree₁
  cases go with
  | false => exact ⟨T₁, _, hagree₁, rfl, .trans ⟨n, hs⟩ (hout T₁)⟩
  | true =>
      simp only [if_true] at hs ⊢
      cases hr : body S₁ with
      | none =>
          rw [hr] at h
          exact h.of_runs ⟨n, hs⟩
      | some p =>
          rw [hr] at h
          obtain ⟨f, S₂⟩ := p
          obtain ⟨T₂, b, hagree₂, hleads, hruns⟩ := h
          -- the body hands control on, asks for the next round, leaves the loop or returns
          cases f with
          | next =>
              cases hleads
              obtain ⟨T₃, hagree₃, hruns₃⟩ := hlast S₂ T₂ hagree₂
              obtain ⟨m, hm⟩ := hruns.trans hruns₃
              exact ⟨n + m, T₃, hagree₃, by omega, hs.trans hm⟩
          | continueLoop =>
              -- labels are unique, so the body jumped to the place that the loop has
              obtain ⟨l', pc, e, hpc, rfl⟩ := hleads
              cases e
              cases hcontinue.symm.trans hpc
              obtain ⟨T₃, hagree₃, hruns₃⟩ := hagain S₂ T₂ hagree₂
              obtain ⟨m, hm⟩ := hruns.trans hruns₃
              exact ⟨n + m, T₃, hagree₃, by omega, hs.trans hm⟩
          | breakLoop =>
              obtain ⟨l', pc, e, hpc, rfl⟩ := hleads
              cases e
              cases hbreak.symm.trans hpc
              exact ⟨T₂, _, hagree₂, rfl, .trans ⟨n, hs⟩ (hruns.trans (hout T₂))⟩
          | ret v =>
              cases hleads
              exact ⟨T₂, _, hagree₂, rfl, .trans ⟨n, hs⟩ hruns⟩

/-- A loop that tests its condition last, where it also goes on if the body asks for it. -/
theorem testLast_follows {c : Expr}
    (hfirst : ∀ T : Store types, State.step w code (.running head T) = some (.running first T))
    (hbody : ∀ S T, S.Agree names T →
      Follows w code names limit (some l) (.running first T) last (body S))
    (htest : ∀ S T : Store types, S.Agree names T → ∃ T', (c.eval w S).2.Agree names T' ∧
      Runs w code (.running last T) (.running (if (c.eval w S).1 ≠ 0 then head else stop) T'))
    (hcontinue : position? code (continueLabel l) = some last)
    (hbreak : position? code (breakLabel l) = some out)
    (hout : ∀ T : Store types, Runs w code (.running out T) (.running stop T))
    (S T : Store types) (hagree : S.Agree names T) :
    RoundFollows w code names limit loop T head stop (testLast w c body S) := by
  have h := hbody S T hagree
  rw [testLast]
  -- behind the body, and at a jump to the next round, the condition is tested
  have hnext : ∀ S₁ T₁ : Store types, S₁.Agree names T₁ →
      Runs w code (.running first T) (.running last T₁) →
      RoundFollows w code names limit loop T head stop
        (some (if (c.eval w S₁).1 ≠ 0 then none else some .next, (c.eval w S₁).2)) := by
    intro S₁ T₁ hagree₁ hruns
    obtain ⟨T₂, hagree₂, hruns₂⟩ := htest S₁ T₁ hagree₁
    obtain ⟨n, hn⟩ := hruns.trans hruns₂
    by_cases hv : (c.eval w S₁).1 = 0
    · simp only [hv, ne_eq, not_true_eq_false, if_false] at hn ⊢
      exact ⟨T₂, _, hagree₂, rfl, n + 1, .head (hfirst T) hn⟩
    · simp only [hv, ne_eq, not_false_eq_true, if_true] at hn ⊢
      exact ⟨n + 1, T₂, hagree₂, by omega, .head (hfirst T) hn⟩
  cases hr : body S with
  | none =>
      rw [hr] at h
      exact h.of_runs (.head (hfirst T) (.refl _))
  | some p =>
      rw [hr] at h
      obtain ⟨f, S₁⟩ := p
      obtain ⟨T₁, b, hagree₁, hleads, hruns⟩ := h
      cases f with
      | next =>
          cases hleads
          exact hnext S₁ T₁ hagree₁ hruns
      | continueLoop =>
          obtain ⟨l', pc, e, hpc, rfl⟩ := hleads
          cases e
          cases hcontinue.symm.trans hpc
          exact hnext S₁ T₁ hagree₁ hruns
      | breakLoop =>
          obtain ⟨l', pc, e, hpc, rfl⟩ := hleads
          cases e
          cases hbreak.symm.trans hpc
          exact ⟨T₁, _, hagree₁, rfl, .head (hfirst T) (hruns.trans (hout T₁))⟩
      | ret v =>
          cases hleads
          exact ⟨T₁, _, hagree₁, rfl, .head (hfirst T) hruns⟩

/-! ## What pieces of code do wherever they stand -/

/-- The code of an expression computes its value. -/
def Computes (types : VarTypes) (w : World) (code : List Instr) (names : String → Prop) (e : Expr)
    (out : ExprCode) : Prop :=
  ∀ pc, CodeAt code pc out.code → ∀ S T : Store types, S.Agree names T → ∃ T',
    (e.eval w S).2.Agree names T' ∧ out.value.eval T' = (e.eval w S).1 ∧
    Runs w code (.running pc T) (.running (pc + out.code.length) T')

def Changes (types : VarTypes) (w : World) (code : List Instr) (names : String → Prop)
    (change : Store types → Store types) (part : List Instr) : Prop :=
  ∀ pc, CodeAt code pc part → ∀ S T : Store types, S.Agree names T → ∃ T',
    (change S).Agree names T' ∧ Runs w code (.running pc T) (.running (pc + part.length) T')

/-- The code runs to its end if `test` answers yes, and to the label `target` if not. -/
def Tests (types : VarTypes) (w : World) (code : List Instr) (names : String → Prop)
    (target : String) (test : Store types → Bool × Store types) (part : List Instr) : Prop :=
  ∀ pc out rest, CodeAt code pc part → CodeAt code out (.label target :: rest) →
    ∀ S T : Store types, S.Agree names T → ∃ T', (test S).2.Agree names T' ∧
      Runs w code (.running pc T) (.running (if (test S).1 then pc + part.length else out) T')

def CarriesOut (types : VarTypes) (w : World) (code : List Instr) (names : String → Prop)
    (limit : Nat) (loop : Option String) (act : Action types) (part : List Instr) : Prop :=
  ∀ pc, CodeAt code pc part → ∀ stop, stop = pc + part.length →
    ∀ S T : Store types, S.Agree names T →
      Follows w code names limit loop (.running pc T) stop (act S)

/-- The code has places for the jumps of the loop labelled `l`. -/
def HasLoop (code : List Instr) (l : String) : Prop :=
  (∃ pc, position? code (breakLabel l) = some pc) ∧ ∃ pc, position? code (continueLabel l) = some pc

theorem HasLoop.of_mem {l l' : String} (h : HasLoop code l) (hl : l' ∈ some l) :
    HasLoop code l' := by
  cases hl
  exact h

variable {e : Expr} {out : ExprCode} {part part' : List Instr} {act act' : Action types}

namespace Computes

theorem changes (h : Computes types w code names e out) :
    Changes types w code names (fun S : Store types => (e.eval w S).2) out.code := by
  intro pc hat S T hagree
  obtain ⟨T', hagree', -, hruns⟩ := h pc hat S T hagree
  exact ⟨T', hagree', hruns⟩

/-- Assigning a computed value changes the store as the assignment does. -/
theorem copy (h : Computes types w code names e out) (x : String) :
    Changes types w code names (fun S : Store types => (e.eval w S).2.set x (e.eval w S).1)
      (out.code ++ [.copy out.value (.var x)]) := by
  intro pc hat S T hagree
  obtain ⟨T', hagree', hvalue, hruns⟩ := h pc hat.left S T hagree
  refine ⟨T'.set x (out.value.eval T'), ?_, ?_⟩
  · rw [hvalue]
    exact hagree'.set x _
  · rw [List.length_append, ← Nat.add_assoc]
    exact hruns.trans (.head (hat.right.step_next rfl) (.refl _))

/-- A jump on zero is taken where the condition is false. -/
theorem tests (hn : (labelsOf code).Nodup) (h : Computes types w code names e out)
    (target : String) : Tests types w code names target (holdsIn w (some e))
      (out.code ++ [.jumpIfZero out.value target]) := by
  intro pc stop rest hat hstop S T hagree
  obtain ⟨T', hagree', hvalue, hruns⟩ := h pc hat.left S T hagree
  refine ⟨T', hagree', hruns.trans ?_⟩
  by_cases hv : (e.eval w S).1 = 0
  · have hjump : (Instr.jumpIfZero out.value target).effect w T' = some (.jump target) := by
      rw [Instr.effect, hvalue, if_pos hv]
    simp only [holdsIn, hv, ne_eq, not_true_eq_false, decide_false, Bool.false_eq_true, if_false]
    exact .head (hat.right.step_jump hjump hstop hn) (.refl _)
  · have hnext : (Instr.jumpIfZero out.value target).effect w T' = some (.next T') := by
      rw [Instr.effect, hvalue, if_neg hv]
    simp only [holdsIn, hv, ne_eq, not_false_eq_true, decide_true, if_true, List.length_append,
      List.length_singleton, ← Nat.add_assoc]
    exact .head (hat.right.step_next hnext) (.refl _)

/-- Code of a `return` computes its value and leaves with it. -/
theorem ret (h : Computes types w code names e out) : CarriesOut types w code names limit loop
    (fun S : Store types => some (.ret (e.eval w S).1, (e.eval w S).2))
    (out.code ++ [.ret out.value]) := by
  intro pc hat stop _ S T hagree
  obtain ⟨T', hagree', hvalue, hruns⟩ := h pc hat.left S T hagree
  have hret : (Instr.ret out.value).effect w T' = some (.finish (e.eval w S).1) := by
    rw [Instr.effect, hvalue]
  exact ⟨T', _, hagree', rfl, hruns.trans (.head (hat.right.step_finish hret) (.refl _))⟩

end Computes

theorem changes_nothing : Changes types w code names (fun S : Store types => S) [] :=
  fun _ _ _ T hagree => ⟨T, hagree, .refl _⟩

theorem tests_nothing (target : String) :
    Tests types w code names target (holdsIn w none) [] :=
  fun _ _ _ _ _ _ T hagree => ⟨T, hagree, .refl _⟩

namespace CarriesOut

theorem of_changes {change : Store types → Store types}
    (h : Changes types w code names change part) :
    CarriesOut types w code names limit loop (fun S => some (.next, change S)) part := by
  intro pc hat stop hstop S T hagree
  obtain ⟨T', hagree', hruns⟩ := h pc hat S T hagree
  exact .next hagree' (hstop ▸ hruns)

/-- The code of a change stands before that of an action. -/
theorem after {change : Store types → Store types} (h : Changes types w code names change part)
    (h' : CarriesOut types w code names limit loop act part') :
    CarriesOut types w code names limit loop (fun S => act (change S)) (part ++ part') := by
  intro pc hat stop hstop S T hagree
  obtain ⟨T', hagree', hruns⟩ := h pc hat.left S T hagree
  refine (h' _ hat.right stop ?_ _ T' hagree').of_runs hruns
  rw [hstop, List.length_append, Nat.add_assoc]

/-- The code of one action stands before that of another one, which is carried out only if control
is passed on. -/
theorem append (h : CarriesOut types w code names limit loop act part)
    (h' : CarriesOut types w code names limit loop act' part') :
    CarriesOut types w code names limit loop
      (fun S => match act S with
        | some (.next, S') => act' S'
        | r => r) (part ++ part') := by
  intro pc hat stop hstop S T hagree
  have hfirst := h pc hat.left _ rfl S T hagree
  rw [List.length_append, ← Nat.add_assoc] at hstop
  dsimp only
  -- only control that reaches the end of the first code gets into the second
  match hr : act S with
  | none =>
      rw [hr] at hfirst
      exact hfirst
  | some (.next, S₁) =>
      rw [hr] at hfirst
      obtain ⟨T₁, b, hagree₁, rfl, hruns⟩ := hfirst
      exact (h' _ hat.right stop hstop S₁ T₁ hagree₁).of_runs hruns
  | some (.breakLoop, S₁) | some (.continueLoop, S₁) | some (.ret n, S₁) =>
      rw [hr] at hfirst
      exact hfirst

theorem breakLoop {l : String} (h : HasLoop code l) :
    CarriesOut types w code names limit (some l) (fun S : Store types => some (.breakLoop, S))
      [.jump (breakLabel l)] := by
  intro pc hat stop _ S T hagree
  obtain ⟨⟨out, hout⟩, -⟩ := h
  exact ⟨T, _, hagree, ⟨l, out, rfl, hout, rfl⟩, .head (hat.step_jump_to rfl hout) (.refl _)⟩

theorem continueLoop {l : String} (h : HasLoop code l) :
    CarriesOut types w code names limit (some l) (fun S : Store types => some (.continueLoop, S))
      [.jump (continueLabel l)] := by
  intro pc hat stop _ S T hagree
  obtain ⟨-, again, hagain⟩ := h
  exact ⟨T, _, hagree, ⟨l, again, rfl, hagain, rfl⟩, .head (hat.step_jump_to rfl hagain) (.refl _)⟩

/-! ### Choices -/

/-- Where the test fails, control is at the label behind the code. -/
theorem ifThen {finish : String}
    (h : Tests types w code names finish (holdsIn w (some e)) part)
    (hy : CarriesOut types w code names limit loop act part') :
    CarriesOut types w code names limit loop
      (fun S => if (e.eval w S).1 ≠ 0 then act (e.eval w S).2 else some (.next, (e.eval w S).2))
      (part ++ part' ++ [.label finish]) := by
  intro pc hat stop hstop S T hagree
  have hfinish : CodeAt code (pc + part.length + part'.length) [.label finish] :=
    hat.behind (by simp; omega)
  obtain rfl : stop = pc + part.length + part'.length + 1 := by
    rw [hstop]
    simp
    omega
  have hend : ∀ T : Store types, Runs w code (.running (pc + part.length + part'.length) T)
      (.running (pc + part.length + part'.length + 1) T) :=
    fun T => .head (hfinish.step_next rfl) (.refl _)
  obtain ⟨T₁, hagree₁, hruns⟩ := h pc _ _ hat.left.left hfinish S T hagree
  by_cases hv : (e.eval w S).1 = 0
  · simp only [holdsIn, hv, ne_eq, not_true_eq_false, decide_false, Bool.false_eq_true,
      if_false] at hruns ⊢
    exact .next hagree₁ (hruns.trans (hend T₁))
  · simp only [holdsIn, hv, ne_eq, not_false_eq_true, decide_true, if_true] at hruns ⊢
    exact ((hy _ hat.left.right _ rfl _ T₁ hagree₁).move hend).of_runs hruns

/-- Each branch leads to the same end, the second one through the label in front of it. -/
theorem ifElse (hn : (labelsOf code).Nodup) {finish other : String} {part'' : List Instr}
    (h : Tests types w code names other (holdsIn w (some e)) part)
    (hy : CarriesOut types w code names limit loop act part')
    (hno : CarriesOut types w code names limit loop act' part'') :
    CarriesOut types w code names limit loop
      (fun S => if (e.eval w S).1 ≠ 0 then act (e.eval w S).2 else act' (e.eval w S).2)
      (part ++ part' ++ [.jump finish, .label other] ++ part'' ++ [.label finish]) := by
  intro pc hat stop hstop S T hagree
  -- the places of the parts: test, arm, jump and label, arm, label
  have hjump : CodeAt code (pc + part.length + part'.length) [.jump finish, .label other] :=
    hat.left.left.behind (by simp; omega)
  have hatno : CodeAt code (pc + part.length + part'.length + 2) part'' :=
    hat.left.behind (by simp; omega)
  have hfinish : CodeAt code (pc + part.length + part'.length + 2 + part''.length)
      [.label finish] := hat.behind (by simp; omega)
  obtain rfl : stop = pc + part.length + part'.length + 2 + part''.length + 1 := by
    rw [hstop]
    simp
    omega
  have hend : ∀ T : Store types,
      Runs w code (.running (pc + part.length + part'.length + 2 + part''.length) T)
        (.running (pc + part.length + part'.length + 2 + part''.length + 1) T) :=
    fun T => .head (hfinish.step_next rfl) (.refl _)
  obtain ⟨T₁, hagree₁, hruns⟩ := h pc _ _ hat.left.left.left.left hjump.tail S T hagree
  by_cases hv : (e.eval w S).1 = 0
  · simp only [holdsIn, hv, ne_eq, not_true_eq_false, decide_false, Bool.false_eq_true,
      if_false] at hruns ⊢
    refine ((hno _ hatno _ rfl _ T₁ hagree₁).move hend).of_runs (hruns.trans ?_)
    exact .head (hjump.tail.step_next rfl) (.refl _)
  · simp only [holdsIn, hv, ne_eq, not_false_eq_true, decide_true, if_true] at hruns ⊢
    refine ((hy _ hat.left.left.left.right _ rfl _ T₁ hagree₁).move fun T => ?_).of_runs hruns
    exact .head (hjump.step_jump rfl hfinish hn) (hend T)

/-! ### Loops -/

/-- A round that ends normally or by `continue` is at the label at the head again. The induction is
on the number of rounds. -/
theorem whileLoop (hn : (labelsOf code).Nodup) {l : String}
    (h : Tests types w code names (breakLabel l) (holdsIn w (some e)) part)
    (hb : HasLoop code l → CarriesOut types w code names limit (some l) act part') :
    CarriesOut types w code names limit loop (rounds (testFirst w (some e) none act) limit)
      ([.label (continueLabel l)] ++ part ++ part' ++
        [.jump (continueLabel l), .label (breakLabel l)]) := by
  intro pc hat stop hstop S T hagree
  -- the places of the parts: label, test, body, jump back, label
  have hhead := hat.left.left.left
  have hlast : CodeAt code (pc + 1 + part.length + part'.length)
      [.jump (continueLabel l), .label (breakLabel l)] := hat.behind (by simp; omega)
  have hatbody : CodeAt code (pc + 1 + part.length) part' := hat.left.behind (by simp; omega)
  obtain rfl : stop = pc + 1 + part.length + part'.length + 1 + 1 := by
    rw [hstop]
    simp
    omega
  have hcontinue := hhead.position? hn
  have hbreak := hlast.tail.position? hn
  have htest : ∀ S T : Store types, S.Agree names T → ∃ n T',
      (holdsIn w (some e) S).2.Agree names T' ∧ 0 < n ∧ Steps w code n (.running pc T)
        (.running (if (holdsIn w (some e) S).1 then pc + 1 + part.length
          else pc + 1 + part.length + part'.length + 1) T') := by
    intro S T hagree
    obtain ⟨T', hagree', n, hs⟩ := h _ _ _ hat.left.left.right hlast.tail S T hagree
    exact ⟨n + 1, T', hagree', by omega, .head (hhead.step_next rfl) hs⟩
  -- there is no step, and a jump to the next round goes to the head itself
  have hback : ∀ S T : Store types, S.Agree names T → ∃ T', (stepIn w none S).Agree names T' ∧
      Runs w code (.running (pc + 1 + part.length + part'.length) T) (.running pc T') :=
    fun S T hagree => ⟨T, hagree, .head (hlast.step_jump rfl hhead hn) (.refl _)⟩
  have hbody := hb ⟨⟨_, hbreak⟩, _, hcontinue⟩ _ hatbody _ rfl
  have hagain : ∀ S T : Store types, S.Agree names T → ∃ T', (stepIn w none S).Agree names T' ∧
      Runs w code (.running pc T) (.running pc T') := fun S T hagree => ⟨T, hagree, .refl _⟩
  refine rounds_follow (testFirst_follows htest hbody hback hagain hcontinue hbreak fun T => ?_)
    limit (Nat.le_refl limit) S T hagree
  exact .head (hlast.tail.step_next rfl) (.refl _)

/-- A test that succeeds jumps back to the head, and the next round starts with the store behind the
test. -/
theorem doLoop (hn : (labelsOf code).Nodup) {l : String} (h : Computes types w code names e out)
    (hb : HasLoop code l → CarriesOut types w code names limit (some l) act part) :
    CarriesOut types w code names limit loop (rounds (testLast w e act) limit)
      ([.label (startLabel l)] ++ part ++ [.label (continueLabel l)] ++ out.code ++
        [.jumpIfNotZero out.value (startLabel l), .label (breakLabel l)]) := by
  intro pc hat stop hstop S T hagree
  -- the places of the parts: label, body, label, condition, jump back, label
  have hhead := hat.left.left.left.left
  have hatcontinue : CodeAt code (pc + 1 + part.length) [.label (continueLabel l)] :=
    hat.left.left.behind (by simp; omega)
  have hattest : CodeAt code (pc + 1 + part.length + 1) out.code := hat.left.behind (by simp; omega)
  have hlast : CodeAt code (pc + 1 + part.length + 1 + out.code.length)
      [.jumpIfNotZero out.value (startLabel l), .label (breakLabel l)] :=
    hat.behind (by simp; omega)
  obtain rfl : stop = pc + 1 + part.length + 1 + out.code.length + 1 + 1 := by
    rw [hstop]
    simp
    omega
  have hcontinue := hatcontinue.position? hn
  have hbreak := hlast.tail.position? hn
  have hend : ∀ T : Store types,
      Runs w code (.running (pc + 1 + part.length + 1 + out.code.length + 1) T)
        (.running (pc + 1 + part.length + 1 + out.code.length + 1 + 1) T) :=
    fun T => .head (hlast.tail.step_next rfl) (.refl _)
  have htest : ∀ S T : Store types, S.Agree names T → ∃ T', (e.eval w S).2.Agree names T' ∧
      Runs w code (.running (pc + 1 + part.length) T)
        (.running (if (e.eval w S).1 ≠ 0 then pc
          else pc + 1 + part.length + 1 + out.code.length + 1 + 1) T') := by
    intro S T hagree
    obtain ⟨T₁, hagree₁, hvalue, hruns⟩ := h _ hattest S T hagree
    refine ⟨T₁, hagree₁, .head (hatcontinue.step_next rfl) (hruns.trans ?_)⟩
    by_cases hv : (e.eval w S).1 = 0
    · have hnext : (Instr.jumpIfNotZero out.value (startLabel l)).effect w T₁ =
          some (.next T₁) := by
        rw [Instr.effect, hvalue, if_neg (not_not.2 hv)]
      rw [if_neg (not_not.2 hv)]
      exact .head (hlast.step_next hnext) (hend T₁)
    · have hjump : (Instr.jumpIfNotZero out.value (startLabel l)).effect w T₁ =
          some (.jump (startLabel l)) := by
        rw [Instr.effect, hvalue, if_pos hv]
      rw [if_pos hv]
      exact .head (hlast.step_jump hjump hhead hn) (.refl _)
  have hbody := hb ⟨⟨_, hbreak⟩, _, hcontinue⟩ (pc + 1) (hat.left.left.left.behind (by simp)) _ rfl
  exact rounds_follow (testLast_follows (fun T => hhead.step_next rfl) hbody htest hcontinue hbreak
    hend) limit (Nat.le_refl limit) S T hagree

/-- The rounds of a `for` loop, whose header has been entered. -/
theorem forLoop (hn : (labelsOf code).Nodup) {l : String} {c post : Option Expr}
    {part'' : List Instr} (h : Tests types w code names (breakLabel l) (holdsIn w c) part)
    (hb : HasLoop code l → CarriesOut types w code names limit (some l) act part')
    (hp : Changes types w code names (stepIn w post) part'') :
    CarriesOut types w code names limit loop (rounds (testFirst w c post act) limit)
      ([.label (startLabel l)] ++ part ++ part' ++ [.label (continueLabel l)] ++ part'' ++
        [.jump (startLabel l), .label (breakLabel l)]) := by
  intro pc hat stop hstop S T hagree
  -- the places of the parts: label, test, body, label, step, jump back, label
  have hhead := hat.left.left.left.left.left
  have hatbody : CodeAt code (pc + 1 + part.length) part' :=
    hat.left.left.left.behind (by simp; omega)
  have hatcontinue : CodeAt code (pc + 1 + part.length + part'.length) [.label (continueLabel l)] :=
    hat.left.left.behind (by simp; omega)
  have hatpost : CodeAt code (pc + 1 + part.length + part'.length + 1) part'' :=
    hat.left.behind (by simp; omega)
  have hlast : CodeAt code (pc + 1 + part.length + part'.length + 1 + part''.length)
      [.jump (startLabel l), .label (breakLabel l)] := hat.behind (by simp; omega)
  obtain rfl : stop = pc + 1 + part.length + part'.length + 1 + part''.length + 1 + 1 := by
    rw [hstop]
    simp
    omega
  have hcontinue := hatcontinue.position? hn
  have hbreak := hlast.tail.position? hn
  have htest : ∀ S T : Store types, S.Agree names T → ∃ n T', (holdsIn w c S).2.Agree names T' ∧
      0 < n ∧ Steps w code n (.running pc T) (.running (if (holdsIn w c S).1
        then pc + 1 + part.length
        else pc + 1 + part.length + part'.length + 1 + part''.length + 1) T') := by
    intro S T hagree
    obtain ⟨T', hagree', n, hs⟩ := h _ _ _ hat.left.left.left.left.right hlast.tail S T hagree
    exact ⟨n + 1, T', hagree', by omega, .head (hhead.step_next rfl) hs⟩
  -- a body that is left at its end and one that is cut short both go on at the same label
  have hback : ∀ S T : Store types, S.Agree names T → ∃ T', (stepIn w post S).Agree names T' ∧
      Runs w code (.running (pc + 1 + part.length + part'.length) T) (.running pc T') := by
    intro S T hagree
    obtain ⟨T', hagree', hruns⟩ := hp _ hatpost S T hagree
    refine ⟨T', hagree', .head (hatcontinue.step_next rfl) (hruns.trans ?_)⟩
    exact .head (hlast.step_jump rfl hhead hn) (.refl _)
  have hbody := hb ⟨⟨_, hbreak⟩, _, hcontinue⟩ _ hatbody _ rfl
  refine rounds_follow (testFirst_follows htest hbody hback hback hcontinue hbreak fun T => ?_)
    limit (Nat.le_refl limit) S T hagree
  exact .head (hlast.tail.step_next rfl) (.refl _)

end CarriesOut

/-! ## Statements -/

namespace Coder

variable {t : SymbolTable} {s : Supply}

theorem expr_computes (hn : (labelsOf code).Nodup) {o : ExprCode × Supply} (h : e.Typed t)
    (hs : e.Sequenced) (hrun : (expr e).run s = .ok o) (hfits : Fits t names types s o.2) :
    Computes types w code names e o.1 := by
  obtain ⟨τ, hτ⟩ := h
  intro pc hat S T hagree
  obtain ⟨T', h⟩ := expr_faithful hn t e τ s o hτ hs hrun hfits pc hat S T hagree
  exact ⟨T', h.agree, h.value, h.runs⟩

/-- A variable with a storage class has no code, and its declaration changes nothing when it is
reached. -/
theorem localVar_changes (hn : (labelsOf code).Nodup) {d : VarDecl} {o : List Instr × Supply}
    (h : d.Typed t) (hs : ∀ e ∈ d.running, e.Sequenced) (hrun : (localVar d).run s = .ok o)
    (hfits : Fits t names types s o.2) :
    Changes types w code names (d.exec w) o.1 := by
  obtain ⟨span, x, τ, storage, init⟩ := d
  cases storage with
  | some storage =>
      cases hrun
      exact changes_nothing
  | none =>
      cases init with
      | none =>
          cases hrun
          exact changes_nothing
      | some e =>
          obtain ⟨⟨out, s₁⟩, h₁, hrun⟩ := run_bind_eq_ok.1 hrun
          cases hrun
          have hse : e.Sequenced := hs e (List.mem_singleton.2 rfl)
          exact (expr_computes hn ⟨τ, (h rfl).2 e rfl⟩ hse h₁ hfits).copy x

theorem forInit_changes (hn : (labelsOf code).Nodup) {i : ForInit} {o : List Instr × Supply}
    (h : i.Typed t) (hs : Part.AllSequenced i.parts) (hrun : (forInit i).run s = .ok o)
    (hfits : Fits t names types s o.2) :
    Changes types w code names (i.exec w) o.1 := by
  cases i with
  | nothing =>
      cases hrun
      exact changes_nothing
  | decl d =>
      have hsd : ∀ e ∈ d.running, e.Sequenced := by simpa [ForInit.parts, Part.running] using hs
      exact localVar_changes hn h hsd hrun hfits
  | expr e =>
      obtain ⟨⟨out, s₁⟩, h₁, hrun⟩ := run_bind_eq_ok.1 hrun
      cases hrun
      have hse : e.Sequenced := by simpa [ForInit.parts, Part.running] using hs
      exact (expr_computes hn h hse h₁ hfits).changes

/-- A missing condition holds and has no code. -/
theorem exitTest_tests (hn : (labelsOf code).Nodup) {target : String} {c : Option Expr}
    {o : List Instr × Supply} (h : ∀ e ∈ c, e.Typed t) (hs : ∀ e ∈ c, e.Sequenced)
    (hrun : (exitTest target c).run s = .ok o) (hfits : Fits t names types s o.2) :
    Tests types w code names target (holdsIn w c) o.1 := by
  cases c with
  | none =>
      cases hrun
      exact tests_nothing target
  | some e =>
      obtain ⟨⟨out, s₁⟩, h₁, hrun⟩ := run_bind_eq_ok.1 hrun
      cases hrun
      exact (expr_computes hn (h e rfl) (hs e rfl) h₁ hfits).tests hn target

theorem step_changes (hn : (labelsOf code).Nodup) {post : Option Expr} {o : List Instr × Supply}
    (h : ∀ e ∈ post, e.Typed t) (hs : ∀ e ∈ post, e.Sequenced) (hrun : (step post).run s = .ok o)
    (hfits : Fits t names types s o.2) :
    Changes types w code names (stepIn w post) o.1 := by
  cases post with
  | none =>
      cases hrun
      exact changes_nothing
  | some e =>
      obtain ⟨⟨out, s₁⟩, h₁, hrun⟩ := run_bind_eq_ok.1 hrun
      cases hrun
      exact (expr_computes hn (h e rfl) (hs e rfl) h₁ hfits).changes

/-- The code that is made of a statement follows it wherever it stands, if there are places for the
jumps of the loop around it. -/
def StmtCarried (types : VarTypes) (w : World) (code : List Instr) (names : String → Prop)
    (limit : Nat) (t : SymbolTable) (result : IntType) (c : Stmt) : Prop :=
  ∀ (loop : Option String) (s : Supply) (o : List Instr × Supply), c.Typed t result →
    c.LoopsNamed loop → Part.AllSequenced c.parts → (stmt c).run s = .ok o →
    Fits t names types s o.2 → (∀ l ∈ loop, HasLoop code l) →
      CarriesOut types w code names limit loop (c.exec w limit) o.1

def ItemCarried (types : VarTypes) (w : World) (code : List Instr) (names : String → Prop)
    (limit : Nat) (t : SymbolTable) (result : IntType) (i : Item) : Prop :=
  ∀ (loop : Option String) (s : Supply) (o : List Instr × Supply), i.Typed t result →
    i.LoopsNamed loop → Part.AllSequenced i.parts → (item i).run s = .ok o →
    Fits t names types s o.2 → (∀ l ∈ loop, HasLoop code l) →
      CarriesOut types w code names limit loop (i.exec w limit) o.1

def ItemsCarried (types : VarTypes) (w : World) (code : List Instr) (names : String → Prop)
    (limit : Nat) (t : SymbolTable) (result : IntType) (is : List Item) : Prop :=
  ∀ (loop : Option String) (s : Supply) (o : List Instr × Supply), Item.AllTyped t result is →
    Item.AllLoopsNamed loop is → Part.AllSequenced (Item.allParts is) →
    (items is).run s = .ok o → Fits t names types s o.2 → (∀ l ∈ loop, HasLoop code l) →
      CarriesOut types w code names limit loop (Item.execAll w limit is) o.1

namespace StmtCarried

variable {result : IntType} {span : Span} {yes no body : Stmt} {l : Option String}

theorem ret (hn : (labelsOf code).Nodup) :
    StmtCarried types w code names limit t result (.ret span e) := by
  intro loop s o h _ hs hrun hfits _
  rw [stmt] at hrun
  obtain ⟨⟨out, s₁⟩, h₁, hrun⟩ := run_bind_eq_ok.1 hrun
  cases hrun
  have hse : e.Sequenced := by simpa [Stmt.parts, Part.running] using hs
  exact (expr_computes hn ⟨result, h⟩ hse h₁ hfits).ret

theorem expr (hn : (labelsOf code).Nodup) :
    StmtCarried types w code names limit t result (.expr span e) := by
  intro loop s o h _ hs hrun hfits _
  rw [stmt] at hrun
  obtain ⟨⟨out, s₁⟩, h₁, hrun⟩ := run_bind_eq_ok.1 hrun
  cases hrun
  have hse : e.Sequenced := by simpa [Stmt.parts, Part.running] using hs
  exact .of_changes (expr_computes hn h hse h₁ hfits).changes

/-- The code and the statement evaluate the condition first and then take the same branch. -/
theorem ifThen (hn : (labelsOf code).Nodup)
    (hyes : StmtCarried types w code names limit t result yes) :
    StmtCarried types w code names limit t result (.ifThen span e yes) := by
  intro loop s o h hl hs hrun hfits hloop
  rw [stmt] at hrun
  obtain ⟨⟨test, s₁⟩, h₁, hrun⟩ := run_bind_eq_ok.1 hrun
  obtain ⟨⟨finish, s₂⟩, h₂, hrun⟩ := run_bind_eq_ok.1 hrun
  obtain ⟨⟨yes', s₃⟩, h₃, hrun⟩ := run_bind_eq_ok.1 hrun
  cases hrun
  obtain ⟨he, hy⟩ := h
  obtain ⟨hse, hsy⟩ : e.Sequenced ∧ Part.AllSequenced yes.parts := by
    simpa [Stmt.parts, Part.running] using hs
  have hg₁ := ((expr_code_made (he.mono hfits.base)).ok_of_eq h₁).1.grows
  have hg₂ := ((label_made (by decide) s₁).ok_of_eq h₂).grows
  -- the yes part is coded with what the test and the label leave of the supply
  have hfits₂ := hfits.right (hg₁.trans hg₂)
  have hg₃ := ((stmt_made yes s₂ (.mono hfits₂.base yes hy) hl).ok_of_eq h₃).grows
  have htest := (expr_computes (w := w) hn he hse h₁ (hfits.left (hg₂.trans hg₃))).tests hn finish
  exact .ifThen htest (hyes loop s₂ _ hy hl hsy h₃ hfits₂ hloop)

theorem ifElse (hn : (labelsOf code).Nodup)
    (hyes : StmtCarried types w code names limit t result yes)
    (hnot : StmtCarried types w code names limit t result no) :
    StmtCarried types w code names limit t result (.ifElse span e yes no) := by
  intro loop s o h hl hs hrun hfits hloop
  rw [stmt] at hrun
  obtain ⟨⟨test, s₁⟩, h₁, hrun⟩ := run_bind_eq_ok.1 hrun
  obtain ⟨⟨finish, s₂⟩, h₂, hrun⟩ := run_bind_eq_ok.1 hrun
  obtain ⟨⟨other, s₃⟩, h₃, hrun⟩ := run_bind_eq_ok.1 hrun
  obtain ⟨⟨yes', s₄⟩, h₄, hrun⟩ := run_bind_eq_ok.1 hrun
  obtain ⟨⟨no', s₅⟩, h₅, hrun⟩ := run_bind_eq_ok.1 hrun
  cases hrun
  obtain ⟨he, hy, hno⟩ := h
  obtain ⟨hse, hsy, hsn⟩ :
      e.Sequenced ∧ Part.AllSequenced yes.parts ∧ Part.AllSequenced no.parts := by
    simpa [Stmt.parts, Part.running] using hs
  have hg₁ := ((expr_code_made (he.mono hfits.base)).ok_of_eq h₁).1.grows
  have hg₂ := ((label_made (by decide) s₁).ok_of_eq h₂).grows
  have hg₃ := hg₂.trans ((label_made (by decide) s₂).ok_of_eq h₃).grows
  have hfits₃ := hfits.right (hg₁.trans hg₃)
  have hg₄ := ((stmt_made yes s₃ (.mono hfits₃.base yes hy) hl.1).ok_of_eq h₄).grows
  have hfits₄ := hfits₃.right hg₄
  have hg₅ := ((stmt_made no s₄ (.mono hfits₄.base no hno) hl.2).ok_of_eq h₅).grows
  have htest := (expr_computes (w := w) hn he hse h₁
    (hfits.left (hg₃.trans (hg₄.trans hg₅)))).tests hn other
  have hyes' := hyes loop s₃ _ hy hl.1 hsy h₄ (hfits₃.left hg₅) hloop
  exact .ifElse hn htest hyes' (hnot loop s₄ _ hno hl.2 hsn h₅ hfits₄ hloop)

theorem block {is : List Item} (his : ItemsCarried types w code names limit t result is) :
    StmtCarried types w code names limit t result (.block span is) := by
  intro loop s o h hl hs hrun hfits hloop
  rw [stmt] at hrun
  have hsi : Part.AllSequenced (Item.allParts is) := by
    simpa [Stmt.parts, Part.running] using hs
  exact his loop s o h hl hsi hrun hfits hloop

theorem breakLoop : StmtCarried types w code names limit t result (.breakLoop span l) := by
  intro loop s o _ hl _ hrun _ hloop
  obtain ⟨name, rfl⟩ := Option.isSome_iff_exists.1 hl.1
  obtain rfl : some name = loop := hl.2
  cases hrun
  exact .breakLoop (hloop name rfl)

theorem continueLoop : StmtCarried types w code names limit t result (.continueLoop span l) := by
  intro loop s o _ hl _ hrun _ hloop
  obtain ⟨name, rfl⟩ := Option.isSome_iff_exists.1 hl.1
  obtain rfl : some name = loop := hl.2
  cases hrun
  exact .continueLoop (hloop name rfl)

theorem doLoop (hn : (labelsOf code).Nodup)
    (hbody : StmtCarried types w code names limit t result body) :
    StmtCarried types w code names limit t result (.doLoop span l body e) := by
  intro loop s o h hl hs hrun hfits _
  obtain ⟨name, rfl⟩ := Option.isSome_iff_exists.1 hl.1
  rw [stmt, run_loopLabel_eq] at hrun
  obtain ⟨⟨test, s₁⟩, h₁, hrun⟩ := run_bind_eq_ok.1 hrun
  obtain ⟨⟨body', s₂⟩, h₂, hrun⟩ := run_bind_eq_ok.1 hrun
  cases hrun
  obtain ⟨hb, he⟩ := h
  obtain ⟨hsb, hse⟩ : Part.AllSequenced body.parts ∧ e.Sequenced := by
    simpa [Stmt.parts, Part.running] using hs
  have hg₁ := ((expr_code_made (he.mono hfits.base)).ok_of_eq h₁).1.grows
  have hfits₁ := hfits.right hg₁
  have hg₂ := ((stmt_made body s₁ (.mono hfits₁.base body hb) hl.2).ok_of_eq h₂).grows
  refine .doLoop hn (expr_computes hn he hse h₁ (hfits.left hg₂)) fun hplaces => ?_
  -- the places of this loop are those for the jumps of its body
  exact hbody (some name) s₁ _ hb hl.2 hsb h₂ hfits₁ fun l => hplaces.of_mem

/-- The labels of the loop are places in the whole code, so that jumps in the body find them. -/
theorem whileLoop (hn : (labelsOf code).Nodup)
    (hbody : StmtCarried types w code names limit t result body) :
    StmtCarried types w code names limit t result (.whileLoop span l e body) := by
  intro loop s o h hl hs hrun hfits _
  obtain ⟨name, rfl⟩ := Option.isSome_iff_exists.1 hl.1
  rw [stmt, run_loopLabel_eq] at hrun
  obtain ⟨⟨test, s₁⟩, h₁, hrun⟩ := run_bind_eq_ok.1 hrun
  obtain ⟨⟨body', s₂⟩, h₂, hrun⟩ := run_bind_eq_ok.1 hrun
  cases hrun
  obtain ⟨he, hb⟩ := h
  obtain ⟨hse, hsb⟩ : e.Sequenced ∧ Part.AllSequenced body.parts := by
    simpa [Stmt.parts, Part.running] using hs
  have hg₁ := ((expr_code_made (he.mono hfits.base)).ok_of_eq h₁).1.grows
  have hfits₁ := hfits.right hg₁
  have hg₂ := ((stmt_made body s₁ (.mono hfits₁.base body hb) hl.2).ok_of_eq h₂).grows
  have htest := (expr_computes (w := w) hn he hse h₁ (hfits.left hg₂)).tests hn (breakLabel name)
  rw [List.append_assoc [_]]
  refine .whileLoop hn htest fun hplaces => ?_
  exact hbody (some name) s₁ _ hb hl.2 hsb h₂ hfits₁ fun l => hplaces.of_mem

/-- The header is run once, and behind it the condition, the body and the step make one round. -/
theorem forLoop (hn : (labelsOf code).Nodup) {init : ForInit} {c post : Option Expr}
    (hbody : StmtCarried types w code names limit t result body) :
    StmtCarried types w code names limit t result (.forLoop span l init c post body) := by
  intro loop s o h hl hs hrun hfits _
  obtain ⟨name, rfl⟩ := Option.isSome_iff_exists.1 hl.1
  rw [stmt, run_loopLabel_eq] at hrun
  obtain ⟨⟨init', s₁⟩, h₁, hrun⟩ := run_bind_eq_ok.1 hrun
  obtain ⟨⟨test, s₂⟩, h₂, hrun⟩ := run_bind_eq_ok.1 hrun
  obtain ⟨⟨body', s₃⟩, h₃, hrun⟩ := run_bind_eq_ok.1 hrun
  obtain ⟨⟨post', s₄⟩, h₄, hrun⟩ := run_bind_eq_ok.1 hrun
  cases hrun
  obtain ⟨hi, hc, hp, hb⟩ := h
  obtain ⟨-, hsi, hsc, hsp, hsb⟩ : (∀ e ∈ (Part.loop (some name)).running, e.Sequenced) ∧
      Part.AllSequenced init.parts ∧ Part.AllSequenced (Part.optional c) ∧
      Part.AllSequenced (Part.optional post) ∧ Part.AllSequenced body.parts := by
    simpa [Stmt.parts, Part.running] using hs
  have hg₁ := ((forInit_made (hi.mono hfits.base)).ok_of_eq h₁).grows
  have hfits₁ := hfits.right hg₁
  have hg₂ := ((exitTest_made (typed_forall_mono hfits₁.base hc)).ok_of_eq h₂).grows
  have hfits₂ := hfits₁.right hg₂
  have hg₃ := ((stmt_made body s₂ (.mono hfits₂.base body hb) hl.2).ok_of_eq h₃).grows
  have hfits₃ := hfits₂.right hg₃
  have hg₄ := ((step_made (typed_forall_mono hfits₃.base hp)).ok_of_eq h₄).grows
  have hinit := forInit_changes (w := w) hn hi hsi h₁ (hfits.left (hg₂.trans (hg₃.trans hg₄)))
  have htest := exitTest_tests (w := w) hn hc (Part.allSequenced_optional.1 hsc) h₂
    (hfits₁.left (hg₃.trans hg₄))
  have hpost := step_changes (w := w) hn hp (Part.allSequenced_optional.1 hsp) h₄ hfits₃
  -- behind the header the code is that of the rounds
  have hrounds : CarriesOut types w code names limit loop
      (rounds (testFirst w c post (body.exec w limit)) limit) _ :=
    .forLoop hn htest (fun hplaces => hbody (some name) s₂ _ hb hl.2 hsb h₃ (hfits₂.left hg₄)
      fun l => hplaces.of_mem) hpost
  have hloop := CarriesOut.after hinit hrounds
  simp only [List.append_assoc] at hloop ⊢
  exact hloop

theorem null : StmtCarried types w code names limit t result (.null span) := by
  intro loop s o _ _ _ hrun _ _
  cases hrun
  exact .of_changes changes_nothing

end StmtCarried

namespace ItemCarried

variable {result : IntType}

theorem stmt {c : Stmt} (hc : StmtCarried types w code names limit t result c) :
    ItemCarried types w code names limit t result (.stmt c) := by
  intro loop s o h hl hs hrun hfits hloop
  rw [item] at hrun
  exact hc loop s o h hl hs hrun hfits hloop

theorem decl (hn : (labelsOf code).Nodup) (d : Decl) :
    ItemCarried types w code names limit t result (.decl d) := by
  intro loop s o h _ hs hrun hfits _
  cases d with
  | var d =>
      rw [item] at hrun
      have hsd : ∀ e ∈ d.running, e.Sequenced := by simpa [Item.parts, Part.running] using hs
      exact .of_changes (localVar_changes hn h hsd hrun hfits)
  | prototype _ | function _ _ _ =>
      cases hrun
      exact .of_changes changes_nothing

end ItemCarried

namespace ItemsCarried

variable {result : IntType} {i : Item} {is : List Item}

theorem nil : ItemsCarried types w code names limit t result [] := by
  intro loop s o _ _ _ hrun _ _
  cases hrun
  exact .of_changes changes_nothing

/-- The items behind the first one run where it ends normally. Otherwise control is where it has
jumped. -/
theorem cons (hitem : ItemCarried types w code names limit t result i)
    (hitems : ItemsCarried types w code names limit t result is) :
    ItemsCarried types w code names limit t result (i :: is) := by
  intro loop s o h hl hs hrun hfits hloop
  obtain ⟨hi, his⟩ := h
  obtain ⟨hli, hlis⟩ := hl
  rw [items] at hrun
  obtain ⟨⟨i', s₁⟩, h₁, hrun⟩ := run_bind_eq_ok.1 hrun
  obtain ⟨⟨is', s₂⟩, h₂, hrun⟩ := run_bind_eq_ok.1 hrun
  cases hrun
  obtain ⟨hsi, hsis⟩ := Part.allSequenced_append.1 hs
  have hg₁ := ((item_made i s (.mono hfits.base i hi) hli).ok_of_eq h₁).grows
  have hfits₁ := hfits.right hg₁
  have hg₂ := ((items_made is s₁ (.mono hfits₁.base is his) hlis).ok_of_eq h₂).grows
  exact .append (hitem loop s _ hi hli hsi h₁ (hfits.left hg₂) hloop)
    (hitems loop s₁ _ his hlis hsis h₂ hfits₁ hloop)

end ItemsCarried

mutual
/-- By induction on the statement, with one of the lemmas above for each constructor. -/
theorem stmt_carriesOut (hn : (labelsOf code).Nodup) (limit : Nat) (t : SymbolTable)
    (result : IntType) : (c : Stmt) → StmtCarried types w code names limit t result c
  | .ret _ _ => .ret hn
  | .expr _ _ => .expr hn
  | .ifThen _ _ yes => .ifThen hn (stmt_carriesOut hn limit t result yes)
  | .ifElse _ _ yes no =>
      .ifElse hn (stmt_carriesOut hn limit t result yes) (stmt_carriesOut hn limit t result no)
  | .block _ is => .block (items_carryOut hn limit t result is)
  | .breakLoop _ _ => .breakLoop
  | .continueLoop _ _ => .continueLoop
  | .doLoop _ _ body _ => .doLoop hn (stmt_carriesOut hn limit t result body)
  | .whileLoop _ _ _ body => .whileLoop hn (stmt_carriesOut hn limit t result body)
  | .forLoop _ _ _ _ _ body => .forLoop hn (stmt_carriesOut hn limit t result body)
  | .null _ => .null
termination_by structural c => c

theorem item_carriesOut (hn : (labelsOf code).Nodup) (limit : Nat) (t : SymbolTable)
    (result : IntType) : (i : Item) → ItemCarried types w code names limit t result i
  | .stmt c => .stmt (stmt_carriesOut hn limit t result c)
  | .decl d => .decl hn d
termination_by structural i => i

theorem items_carryOut (hn : (labelsOf code).Nodup) (limit : Nat) (t : SymbolTable)
    (result : IntType) : (is : List Item) → ItemsCarried types w code names limit t result is
  | [] => .nil
  | i :: is =>
      .cons (item_carriesOut hn limit t result i) (items_carryOut hn limit t result is)
termination_by structural is => is
end

end Coder

end IntegerC.ThreeAddress
