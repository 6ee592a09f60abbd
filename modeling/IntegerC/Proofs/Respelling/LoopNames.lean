import IntegerC.Loop
import IntegerC.Proofs.Agreement
import IntegerC.Proofs.Respelling.Likeness

set_option autoImplicit false

/-! # Labelling the loops of two spellings

Labels do not depend on names, so alike programs get the same labels and stay alike.
-/

namespace IntegerC

variable {V F : String → String → Prop}

namespace LoopNamer

theorem fresh_alike (word : String) (n : Nat) :
    Agree ((fresh word).run n) ((fresh word).run n) (fun o o' => o' = o) :=
  .pure rfl

mutual
/-- Loops are numbered in the order in which they stand, so both programs get the same labels. -/
theorem stmt_alike :
    (s : Stmt) → ∀ {s' : Stmt} (loop : Option String) (n : Nat), s.Like V F s' →
      Agree ((stmt loop s).run n) ((stmt loop s').run n)
        (fun o o' => o'.2 = o.2 ∧ o.1.Like V F o'.1)
  | .breakLoop _ _, _, loop, n, ⟨q, rfl⟩ => by
      cases loop with
      | some l => exact .run_pure ⟨rfl, q, rfl⟩
      | none => exact .run_throw
  | .continueLoop _ _, _, loop, n, ⟨q, rfl⟩ => by
      cases loop with
      | some l => exact .run_pure ⟨rfl, q, rfl⟩
      | none => exact .run_throw
  | .whileLoop _ _ e body, _, loop, n, ⟨q, e', body', rfl, he, hb⟩ => by
      rw [stmt, stmt]
      refine (fresh_alike _ n).run_bind fun l l' n₁ n₁' hl => ?_
      -- both runs make the label of this loop from the same number
      cases hl
      refine (stmt_alike body _ n₁ hb).run_bind fun _ b' _ _ ⟨hn, hb⟩ => .run_pure ?_
      exact ⟨hn, q, e', b', rfl, he, hb⟩
  | .doLoop _ _ body e, _, loop, n, ⟨q, body', e', rfl, hb, he⟩ => by
      rw [stmt, stmt]
      refine (fresh_alike _ n).run_bind fun l l' n₁ n₁' hl => ?_
      cases hl
      refine (stmt_alike body _ n₁ hb).run_bind fun _ b' _ _ ⟨hn, hb⟩ => .run_pure ?_
      exact ⟨hn, q, b', e', rfl, hb, he⟩
  | .forLoop _ _ init e post body, _, loop, n,
      ⟨q, init', e', post', body', rfl, hi, he, hp, hb⟩ => by
      rw [stmt, stmt]
      refine (fresh_alike _ n).run_bind fun l l' n₁ n₁' hl => ?_
      cases hl
      refine (stmt_alike body _ n₁ hb).run_bind fun _ b' _ _ ⟨hn, hb⟩ => .run_pure ?_
      exact ⟨hn, q, init', e', post', b', rfl, hi, he, hp, hb⟩
  | .ifThen _ e yes, _, loop, n, ⟨q, e', yes', rfl, he, hy⟩ =>
      (stmt_alike yes loop n hy).run_bind fun _ y' _ _ ⟨hn, hy⟩ =>
        .run_pure ⟨hn, q, e', y', rfl, he, hy⟩
  | .ifElse _ e yes no, _, loop, n, ⟨q, e', yes', no', rfl, he, hy, hno⟩ => by
      rw [stmt, stmt]
      refine (stmt_alike yes loop n hy).run_bind fun y y' n₁ n₁' ⟨hn₁, hy⟩ => ?_
      obtain rfl : n₁' = n₁ := hn₁
      refine (stmt_alike no loop n₁' hno).run_bind fun m m' n₂ n₂' ⟨hn₂, hno⟩ => .run_pure ?_
      exact ⟨hn₂, q, e', y', m', rfl, he, hy, hno⟩
  | .block _ is, _, loop, n, ⟨q, is', rfl, his⟩ =>
      (items_alike is loop n his).run_bind fun _ is' _ _ ⟨hn, his⟩ =>
        .run_pure ⟨hn, q, is', rfl, his⟩
  | .ret _ _, _, loop, n, ⟨q, e', rfl, he⟩ => .run_pure ⟨rfl, q, e', rfl, he⟩
  | .expr _ _, _, loop, n, ⟨q, e', rfl, he⟩ => .run_pure ⟨rfl, q, e', rfl, he⟩
  | .null _, _, loop, n, ⟨q, rfl⟩ => .run_pure ⟨rfl, q, rfl⟩
termination_by structural s => s

theorem item_alike :
    (i : Item) → ∀ {i' : Item} (loop : Option String) (n : Nat), i.Like V F i' →
      Agree ((item loop i).run n) ((item loop i').run n)
        (fun o o' => o'.2 = o.2 ∧ o.1.Like V F o'.1)
  | .stmt s, _, loop, n, ⟨s', rfl, hs⟩ =>
      (stmt_alike s loop n hs).run_bind fun _ s' _ _ ⟨hn, hs⟩ => .run_pure ⟨hn, s', rfl, hs⟩
  | .decl (.var _), _, _, _, ⟨d', rfl, hd⟩ => .run_pure ⟨rfl, d', rfl, hd⟩
  | .decl (.prototype _), _, _, _, ⟨h', rfl, hh⟩ => .run_pure ⟨rfl, h', rfl, hh⟩
termination_by structural i => i

theorem items_alike :
    (is : List Item) → ∀ {is' : List Item} (loop : Option String) (n : Nat),
      Item.AllLike V F is is' →
      Agree ((items loop is).run n) ((items loop is').run n)
        (fun o o' => o'.2 = o.2 ∧ Item.AllLike V F o.1 o'.1)
  | [], _, loop, n, rfl => .run_pure ⟨rfl, rfl⟩
  | i :: is, _, loop, n, ⟨i', is', rfl, hi, his⟩ => by
      rw [items, items]
      refine (item_alike i loop n hi).run_bind fun i₁ i₂ n₁ n₁' ⟨hn₁, hi⟩ => ?_
      obtain rfl : n₁' = n₁ := hn₁
      refine (items_alike is loop n₁' his).run_bind fun is₁ is₂ n₂ n₂' ⟨hn₂, his⟩ => .run_pure ?_
      exact ⟨hn₂, i₂, is₂, rfl, hi, his⟩
termination_by structural is => is
end

/-- Labels are numbered through all functions of the file. -/
theorem decls_alike (ds : List Decl) :
    ∀ {ds' : List Decl} (n : Nat), List.Forall₂ (Decl.Like V F) ds ds' →
      Agree ((decls ds).run n) ((decls ds').run n)
        (fun o o' => List.Forall₂ (Decl.Like V F) o.1 o'.1) := by
  induction ds with
  | nil =>
      intro ds' n h
      cases h
      exact .run_pure .nil
  | cons d ds ih =>
      intro l n h
      obtain ⟨d', ds', hd, hds, rfl⟩ := List.forall₂_cons_left_iff.1 h
      cases d with
      | var d =>
          obtain ⟨e', rfl, he⟩ := hd
          refine (ih n hds).run_bind fun _ _ _ _ hds => .run_pure (.cons ⟨e', rfl, he⟩ hds)
      | prototype f =>
          obtain ⟨f', rfl, hf⟩ := hd
          refine (ih n hds).run_bind fun _ _ _ _ hds => .run_pure (.cons ⟨f', rfl, hf⟩ hds)
      | function f q body =>
          obtain ⟨f', q', body', rfl, hf, hps, hb⟩ := hd
          rw [decls, decls]
          refine (items_alike body none n hb).run_bind fun b b' n₁ n₁' ⟨hn, hb⟩ => ?_
          obtain rfl : n₁' = n₁ := hn
          exact (ih n₁' hds).run_bind fun _ _ _ _ hds =>
            .run_pure (.cons ⟨f', q', b', rfl, hf, hps, hb⟩ hds)

end LoopNamer

/-- The loops of alike programs are labelled in both or in neither, and the programs stay alike. -/
theorem Program.nameLoops_alike {t t' : Program} (h : t.Like V F t') :
    Agree t.nameLoops t'.nameLoops (Program.Like V F) :=
  Agree.bind (Agree.map (LoopNamer.decls_alike t.decls 0 h)) fun _ _ hds => .pure hds

end IntegerC
