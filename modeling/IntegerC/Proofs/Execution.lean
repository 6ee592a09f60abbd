import IntegerC.Proofs.Evaluation

set_option autoImplicit false

/-! # Execution of statements

A statement is executed on a store, and either passes control on, leaves the loop around it, goes on
with the next round of that loop, or returns a number. A loop may never end: an execution with the
bound `limit` gives up when a loop begins one round more than `limit`, and then has no result. A
statement terminates if it has a result for some bound.
-/

namespace IntegerC

variable {types : VarTypes}

/-! ## Where control goes -/

/-- Where control goes behind a statement. -/
inductive Flow where
  | next
  | breakLoop
  | continueLoop
  | ret (n : Int)
deriving Repr, DecidableEq

namespace Flow

/-- How a loop is left when control goes that way behind its body; none if there is a next round. -/
def leaves : Flow → Option Flow
  | next | continueLoop => none
  | breakLoop => some next
  | ret n => some (ret n)

def result? : Flow → Option Int
  | next => some 0
  | ret n => some n
  | breakLoop | continueLoop => none

end Flow

/-! ## Loops -/

/-- What a part of the program does to a store; nothing if it gives up. -/
abbrev Action (types : VarTypes) := Store types → Option (Flow × Store types)

/-- Carries out `round` until it says how the loop is left, but at most so many times. -/
def rounds (round : Store types → Option (Option Flow × Store types)) : Nat → Action types
  | 0, _ => none
  | n + 1, s =>
      match round s with
      | none => none
      | some (none, s') => rounds round n s'
      | some (some f, s') => some (f, s')

/-- Whether the condition of a loop holds; one that is missing does. -/
def holdsIn (w : World) : Option Expr → Store types → Bool × Store types
  | none, s => (true, s)
  | some e, s => ((e.eval w s).1 ≠ 0, (e.eval w s).2)

/-- The last expression of a `for` header, which may be missing. -/
def stepIn (w : World) : Option Expr → Store types → Store types
  | none, s => s
  | some e, s => (e.eval w s).2

/-- A round of a loop that tests its condition first. -/
def testFirst (w : World) (c post : Option Expr) (body : Action types) (s : Store types) :
    Option (Option Flow × Store types) :=
  let (go, s₁) := holdsIn w c s
  if go then
    match body s₁ with
    | none => none
    | some (f, s₂) =>
        match f.leaves with
        | none => some (none, stepIn w post s₂)
        | some f' => some (some f', s₂)
  else some (some .next, s₁)

def testLast (w : World) (c : Expr) (body : Action types) (s : Store types) :
    Option (Option Flow × Store types) :=
  match body s with
  | none => none
  | some (f, s₁) =>
      match f.leaves with
      | none => some (if (c.eval w s₁).1 ≠ 0 then none else some .next, (c.eval w s₁).2)
      | some f' => some (some f', s₁)

/-! ## Statements -/

/-- A declaration in a block stores the initializer of an automatic variable. -/
def VarDecl.exec (w : World) (d : VarDecl) (s : Store types) : Store types :=
  match d.storage, d.init with
  | none, some e => (e.eval w s).2.set d.name (e.eval w s).1
  | _, _ => s

def ForInit.exec (w : World) : ForInit → Store types → Store types
  | .nothing, s => s
  | .decl d, s => d.exec w s
  | .expr e, s => (e.eval w s).2

mutual
def Stmt.exec (w : World) (limit : Nat) : Stmt → Action types
  | .ret _ e, s => some (.ret (e.eval w s).1, (e.eval w s).2)
  | .expr _ e, s => some (.next, (e.eval w s).2)
  | .ifThen _ c yes, s =>
      if (c.eval w s).1 ≠ 0 then yes.exec w limit (c.eval w s).2 else some (.next, (c.eval w s).2)
  | .ifElse _ c yes no, s =>
      if (c.eval w s).1 ≠ 0 then yes.exec w limit (c.eval w s).2
      else no.exec w limit (c.eval w s).2
  | .block _ is, s => Item.execAll w limit is s
  | .breakLoop _ _, s => some (.breakLoop, s)
  | .continueLoop _ _, s => some (.continueLoop, s)
  | .whileLoop _ _ c body, s => rounds (testFirst w (some c) none (body.exec w limit)) limit s
  | .doLoop _ _ body c, s => rounds (testLast w c (body.exec w limit)) limit s
  | .forLoop _ _ init c post body, s =>
      rounds (testFirst w c post (body.exec w limit)) limit (init.exec w s)
  | .null _, s => some (.next, s)

/-- What an item of a block does. Functions that it declares do nothing. -/
def Item.exec (w : World) (limit : Nat) : Item → Action types
  | .stmt c, s => c.exec w limit s
  | .decl (.var d), s => some (.next, d.exec w s)
  | .decl _, s => some (.next, s)

/-- What the items of a block do, one after the other until control goes elsewhere. -/
def Item.execAll (w : World) (limit : Nat) : List Item → Action types
  | [], s => some (.next, s)
  | i :: is, s =>
      match i.exec w limit s with
      | some (.next, s₁) => Item.execAll w limit is s₁
      | r => r
end

/-! ## Larger bounds

An execution that does not give up goes the same way with every larger bound.
-/

/-- `act'` has the results that `act` has. -/
def Keeps {α β : Type} (act act' : α → Option β) : Prop := ∀ s r, act s = some r → act' s = some r

section Keeps

variable {w : World}

/-- More rounds have the results of fewer: a loop that is left in time is left the same way. -/
theorem Keeps.rounds {round round' : Store types → Option (Option Flow × Store types)}
    (h : Keeps round round') {m n : Nat} (hmn : m ≤ n) :
    Keeps (IntegerC.rounds round m) (IntegerC.rounds round' n) := by
  induction m generalizing n with
  | zero =>
      intro s r hr
      cases hr
  | succ m ih =>
      intro s r hr
      obtain ⟨n, rfl⟩ : ∃ k, n = k + 1 := ⟨n - 1, by omega⟩
      rw [IntegerC.rounds] at hr ⊢
      match hround : round s with
      | none =>
          rw [hround] at hr
          cases hr
      | some (none, s') =>
          rw [hround] at hr
          rw [h s _ hround]
          exact ih (by omega) s' r hr
      | some (some f, s') =>
          rw [hround] at hr
          rw [h s _ hround]
          exact hr

variable {body body' : Action types}

/-- A round that tests first has more results if its body has. -/
theorem Keeps.testFirst {c post : Option Expr} (h : Keeps body body') :
    Keeps (IntegerC.testFirst w c post body) (IntegerC.testFirst w c post body') := by
  intro s r hr
  rw [IntegerC.testFirst] at hr ⊢
  generalize holdsIn w c s = p at hr ⊢
  obtain ⟨go, s₁⟩ := p
  cases go with
  | false => exact hr
  | true =>
      simp only [if_true] at hr ⊢
      match hbody : body s₁ with
      | none =>
          rw [hbody] at hr
          cases hr
      | some p =>
          rw [hbody] at hr
          rw [h _ _ hbody]
          exact hr

theorem Keeps.testLast {c : Expr} (h : Keeps body body') :
    Keeps (IntegerC.testLast w c body) (IntegerC.testLast w c body') := by
  intro s r hr
  rw [IntegerC.testLast] at hr ⊢
  match hbody : body s with
  | none =>
      rw [hbody] at hr
      cases hr
  | some p =>
      rw [hbody] at hr
      rw [h _ _ hbody]
      exact hr

variable {m n : Nat}

mutual
/-- An execution that ends with some bound on the rounds ends the same way with every larger
bound. -/
theorem Stmt.exec_keeps (hmn : m ≤ n) :
    (c : Stmt) → Keeps (c.exec w m : Action types) (c.exec w n)
  | .ifThen _ e yes => by
      intro s r hr
      rw [Stmt.exec] at hr ⊢
      split at hr
      · rename_i hv
        rw [if_pos hv]
        exact Stmt.exec_keeps hmn yes _ r hr
      · rename_i hv
        rw [if_neg hv]
        exact hr
  | .ifElse _ e yes no => by
      intro s r hr
      rw [Stmt.exec] at hr ⊢
      split at hr
      · rename_i hv
        rw [if_pos hv]
        exact Stmt.exec_keeps hmn yes _ r hr
      · rename_i hv
        rw [if_neg hv]
        exact Stmt.exec_keeps hmn no _ r hr
  | .block _ is => Item.execAll_keeps hmn is
  | .whileLoop _ _ _ body => (Stmt.exec_keeps hmn body).testFirst.rounds hmn
  | .doLoop _ _ body _ => (Stmt.exec_keeps hmn body).testLast.rounds hmn
  | .forLoop _ _ init _ _ body =>
      fun s => (Stmt.exec_keeps hmn body).testFirst.rounds hmn (init.exec w s)
  | .ret _ _ | .expr _ _ | .breakLoop _ _ | .continueLoop _ _ | .null _ => fun _ _ hr => hr
termination_by structural c => c

theorem Item.exec_keeps (hmn : m ≤ n) :
    (i : Item) → Keeps (i.exec w m : Action types) (i.exec w n)
  | .stmt c => Stmt.exec_keeps hmn c
  | .decl (.var _) | .decl (.prototype _) | .decl (.function _ _ _) => fun _ _ hr => hr
termination_by structural i => i

theorem Item.execAll_keeps (hmn : m ≤ n) :
    (is : List Item) → Keeps (Item.execAll w m is : Action types) (Item.execAll w n is)
  | [] => fun _ _ hr => hr
  | i :: is => by
      intro s r hr
      rw [Item.execAll] at hr ⊢
      match hi : i.exec w m s with
      | none =>
          rw [hi] at hr
          cases hr
      | some (f, s₁) =>
          rw [hi] at hr
          rw [Item.exec_keeps hmn i s _ hi]
          cases f with
          | next => exact Item.execAll_keeps hmn is s₁ r hr
          | breakLoop | continueLoop | ret v => exact hr
termination_by structural is => is
end

end Keeps

/-- The body of a function terminates: from the store `s` it returns `n` and leaves `s'`. A body
that is left at its end returns zero. -/
def Returns (w : World) (body : List Item) (s : Store types) (n : Int) (s' : Store types) : Prop :=
  ∃ limit f, Item.execAll w limit body s = some (f, s') ∧ f.result? = some n

/-- What a body returns and leaves does not depend on the bound. -/
theorem Returns.unique {w : World} {body : List Item} {s s₁ s₂ : Store types} {m n : Int}
    (h₁ : Returns w body s m s₁) (h₂ : Returns w body s n s₂) : m = n ∧ s₁ = s₂ := by
  obtain ⟨l₁, f₁, hexec₁, hf₁⟩ := h₁
  obtain ⟨l₂, f₂, hexec₂, hf₂⟩ := h₂
  have h₁' := Item.execAll_keeps (Nat.le_max_left l₁ l₂) body s _ hexec₁
  have h₂' := Item.execAll_keeps (Nat.le_max_right l₁ l₂) body s _ hexec₂
  cases h₁'.symm.trans h₂'
  exact ⟨Option.some.inj (hf₁.symm.trans hf₂), rfl⟩

/-! ## Expressions of statements -/

namespace Part

/-- The expressions of the parts that are evaluated when the program runs are sequenced. -/
def AllSequenced (parts : List Part) : Prop := ∀ e ∈ parts.flatMap running, e.Sequenced

instance (parts : List Part) : Decidable (AllSequenced parts) :=
  inferInstanceAs (Decidable (∀ e ∈ parts.flatMap running, e.Sequenced))

@[simp] theorem allSequenced_nil : AllSequenced [] := by simp [AllSequenced]

@[simp] theorem allSequenced_cons {x : Part} {xs : List Part} :
    AllSequenced (x :: xs) ↔ (∀ e ∈ x.running, e.Sequenced) ∧ AllSequenced xs := by
  simp only [AllSequenced, List.flatMap_cons, List.forall_mem_append]

@[simp] theorem allSequenced_append {xs ys : List Part} :
    AllSequenced (xs ++ ys) ↔ AllSequenced xs ∧ AllSequenced ys := by
  simp only [AllSequenced, List.flatMap_append, List.forall_mem_append]

theorem allSequenced_optional {o : Option Expr} :
    AllSequenced (Part.optional o) ↔ ∀ e ∈ o, e.Sequenced := by
  cases o <;> simp [AllSequenced]

end Part

end IntegerC
