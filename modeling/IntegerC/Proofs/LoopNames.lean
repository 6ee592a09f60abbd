import IntegerC.Loop
import IntegerC.Proofs.Resolution

set_option autoImplicit false

/-! # What labelling loops ensures

Labelling changes nothing but labels. Afterwards every loop has a label of its own, and every jump
carries the label of the loop around it. Of the jumps outside of all loops the first is refused.
-/

namespace IntegerC

variable {p : Span → Prop}

/-- Labels of loops, with numbers from `lo` up to but not including `hi`. -/
abbrev LoopsGiven (lo hi : Nat) (loops : List String) : Prop :=
  Numbered (· ∈ loopWords) lo hi loops

/-! ## Parts that agree up to labels -/

/-- Two lists of parts that differ in the labels of loops only. -/
def SameParts (xs ys : List Part) : Prop := xs.map Part.unlabelled = ys.map Part.unlabelled

namespace SameParts

variable {xs ys xs' ys' : List Part}

theorem refl (xs : List Part) : SameParts xs xs := rfl

theorem symm (h : SameParts xs ys) : SameParts ys xs := Eq.symm h

theorem trans {zs : List Part} (h : SameParts xs ys) (h' : SameParts ys zs) : SameParts xs zs :=
  Eq.trans h h'

theorem append (h : SameParts xs ys) (h' : SameParts xs' ys') :
    SameParts (xs ++ xs') (ys ++ ys') := by
  unfold SameParts at *
  rw [List.map_append, List.map_append, h, h']

theorem cons {x y : Part} (h : x.unlabelled = y.unlabelled) (h' : SameParts xs ys) :
    SameParts (x :: xs) (y :: ys) := by
  unfold SameParts at *
  rw [List.map_cons, List.map_cons, h, h']

theorem flatMap_eq {α : Type} {f : Part → List α} (hf : ∀ x, f x.unlabelled = f x)
    (h : SameParts xs ys) : xs.flatMap f = ys.flatMap f := by
  have e : ∀ zs : List Part, zs.flatMap f = (zs.map Part.unlabelled).flatMap f := by
    intro zs
    rw [List.flatMap_map]
    exact congrArg (zs.flatMap ·) (funext fun x => (hf x).symm)
  rw [e xs, e ys, h]

/-- Parts that only differ in labels read the same. -/
theorem allRead (h : SameParts xs ys) (hy : Part.AllRead p ys) : Part.AllRead p xs := by
  have hread : ∀ zs, Part.AllRead p zs ↔
      (∀ s ∈ zs.flatMap Part.spans, p s) ∧ ∀ x ∈ zs.flatMap Part.linked, Plain x := by
    intro zs
    simp only [List.mem_flatMap, Part.AllRead]
    constructor
    · intro hz
      refine ⟨?_, ?_⟩
      · rintro s ⟨x, hx, hs⟩
        exact (hz x hx).spans s hs
      · rintro n ⟨x, hx, hn⟩
        exact (hz x hx).plain n hn
    · rintro ⟨hs, hn⟩ x hx
      exact ⟨fun s h => hs s ⟨x, hx, h⟩, fun n h => hn n ⟨x, hx, h⟩⟩
  rw [hread] at hy ⊢
  rwa [h.flatMap_eq fun x => by cases x <;> rfl, h.flatMap_eq fun x => by cases x <;> rfl]

/-- Parts that differ only in the labels of loops are resolved alike. -/
theorem resolved {lo hi : Nat} (h : SameParts xs ys) (hy : Resolved p lo hi ys) :
    Resolved p lo hi xs where
  read := h.allRead hy.read
  numbered := by
    rw [h.flatMap_eq fun x => by cases x <;> rfl]
    exact hy.numbered
  assigns := by
    rw [h.flatMap_eq fun x => by cases x <;> rfl]
    exact hy.assigns

end SameParts

/-! ## Trees without labels -/

mutual
/-- The statement without the labels of its loops and jumps; functions inside functions are left
alone. -/
def Stmt.unlabelled : Stmt → Stmt
  | .breakLoop s _ => .breakLoop s none
  | .continueLoop s _ => .continueLoop s none
  | .whileLoop s _ e body => .whileLoop s none e body.unlabelled
  | .doLoop s _ body e => .doLoop s none body.unlabelled e
  | .forLoop s _ init e post body => .forLoop s none init e post body.unlabelled
  | .ifThen s e yes => .ifThen s e yes.unlabelled
  | .ifElse s e yes no => .ifElse s e yes.unlabelled no.unlabelled
  | .block s is => .block s (Item.allUnlabelled is)
  | .ret s e => .ret s e
  | .expr s e => .expr s e
  | .null s => .null s

def Item.unlabelled : Item → Item
  | .stmt s => .stmt s.unlabelled
  | .decl d => .decl d

def Item.allUnlabelled : List Item → List Item
  | [] => []
  | i :: is => i.unlabelled :: Item.allUnlabelled is
end

def Decl.unlabelled : Decl → Decl
  | .function h s body => .function h s (Item.allUnlabelled body)
  | d => d

def Program.unlabelled (t : Program) : Program := { t with decls := t.decls.map Decl.unlabelled }

mutual
/-- Taking the labels away changes no part other than those of loops. -/
theorem Stmt.sameParts_unlabelled : (s : Stmt) → SameParts s.unlabelled.parts s.parts
  | .whileLoop _ _ _ body => .cons rfl (.cons rfl (.cons rfl (Stmt.sameParts_unlabelled body)))
  | .doLoop _ _ body _ =>
      .cons rfl (.cons rfl ((Stmt.sameParts_unlabelled body).append (.refl _)))
  | .forLoop _ _ _ _ _ body =>
      .cons rfl (.cons rfl (.append (.refl _) (.append (.refl _) (.append (.refl _)
        (Stmt.sameParts_unlabelled body)))))
  | .ifThen _ _ yes => .cons rfl (.cons rfl (Stmt.sameParts_unlabelled yes))
  | .ifElse _ _ yes no =>
      .cons rfl (.cons rfl
        ((Stmt.sameParts_unlabelled yes).append (Stmt.sameParts_unlabelled no)))
  | .block _ is => .cons rfl (Item.sameParts_allUnlabelled is)
  | .breakLoop _ _ | .continueLoop _ _ | .ret _ _ | .expr _ _ | .null _ => .refl _
termination_by structural s => s

theorem Item.sameParts_unlabelled : (i : Item) → SameParts i.unlabelled.parts i.parts
  | .stmt s => Stmt.sameParts_unlabelled s
  | .decl _ => .refl _
termination_by structural i => i

theorem Item.sameParts_allUnlabelled :
    (is : List Item) → SameParts (Item.allParts (Item.allUnlabelled is)) (Item.allParts is)
  | [] => .refl _
  | i :: is => (Item.sameParts_unlabelled i).append (Item.sameParts_allUnlabelled is)
termination_by structural is => is
end

theorem Item.sameParts_of_allUnlabelled_eq {is is' : List Item}
    (h : allUnlabelled is = allUnlabelled is') : SameParts (allParts is) (allParts is') := by
  have hsame := (sameParts_allUnlabelled is).symm
  rw [h] at hsame
  exact hsame.trans (sameParts_allUnlabelled is')

theorem Decl.sameParts_unlabelled (d : Decl) : SameParts d.unlabelled.parts d.parts := by
  cases d with
  | function f s body => exact .cons rfl (.cons rfl (Item.sameParts_allUnlabelled body))
  | _ => exact .refl _

theorem Program.sameParts_unlabelled (t : Program) : SameParts t.unlabelled.parts t.parts := by
  unfold parts unlabelled
  induction t.decls with
  | nil => exact .refl _
  | cons d ds ih => exact (d.sameParts_unlabelled).append ih

theorem Program.sameParts_of_unlabelled_eq {t t' : Program} (h : t.unlabelled = t'.unlabelled) :
    SameParts t.parts t'.parts := by
  have hsame := t.sameParts_unlabelled.symm
  rw [h] at hsame
  exact hsame.trans t'.sameParts_unlabelled

/-! ## Jumps outside of all loops -/

mutual
/-- The faults of the jumps of a statement that lie in none of its loops, in the order of the text;
functions inside functions do not count. -/
def Stmt.strays : Stmt → List Fault
  | .breakLoop s _ => [Cause.breakOutsideLoop.at s]
  | .continueLoop s _ => [Cause.continueOutsideLoop.at s]
  | .ifThen _ _ yes => yes.strays
  | .ifElse _ _ yes no => yes.strays ++ no.strays
  | .block _ is => Item.allStrays is
  | .whileLoop _ _ _ _ | .doLoop _ _ _ _ | .forLoop _ _ _ _ _ _ => []
  | .ret _ _ | .expr _ _ | .null _ => []

def Item.strays : Item → List Fault
  | .stmt s => s.strays
  | .decl _ => []

def Item.allStrays : List Item → List Fault
  | [] => []
  | i :: is => i.strays ++ Item.allStrays is
end

def Decl.strays : Decl → List Fault
  | .function _ _ body => Item.allStrays body
  | .var _ | .prototype _ => []

/-- The faults of the jumps of a program that lie in no loop of their function. -/
def Program.strays (t : Program) : List Fault := t.decls.flatMap Decl.strays

mutual
/-- The fault of a stray jump is one of a source text, at the jump. -/
theorem Stmt.at_strays : (s : Stmt) → Part.AllRead p s.parts → ∀ f ∈ s.strays, Fault.At p f
  | .breakLoop _ _, h | .continueLoop _ _, h => by
      refine List.forall_mem_singleton.2 (.of ?_ (Part.read_span.1 (h _ List.mem_cons_self)))
      simp
  | .ifThen _ _ yes, h => by
      simp only [Stmt.parts, Part.allRead_cons] at h
      exact Stmt.at_strays yes h.2.2
  | .ifElse _ _ yes no, h => by
      simp only [Stmt.parts, Part.allRead_cons, Part.allRead_append] at h
      exact List.forall_mem_append.2 ⟨Stmt.at_strays yes h.2.2.1, Stmt.at_strays no h.2.2.2⟩
  | .block _ is, h => by
      simp only [Stmt.parts, Part.allRead_cons] at h
      exact Item.at_allStrays is h.2
  | .whileLoop _ _ _ _, _ | .doLoop _ _ _ _, _ | .forLoop _ _ _ _ _ _, _ => List.forall_mem_nil _
  | .ret _ _, _ | .expr _ _, _ | .null _, _ => List.forall_mem_nil _
termination_by structural s => s

theorem Item.at_strays : (i : Item) → Part.AllRead p i.parts → ∀ f ∈ i.strays, Fault.At p f
  | .stmt s, h => Stmt.at_strays s h
  | .decl _, _ => List.forall_mem_nil _
termination_by structural i => i

theorem Item.at_allStrays :
    (is : List Item) → Part.AllRead p (Item.allParts is) → ∀ f ∈ Item.allStrays is, Fault.At p f
  | [], _ => List.forall_mem_nil _
  | i :: is, h => by
      rw [Item.allParts, Part.allRead_append] at h
      exact List.forall_mem_append.2 ⟨Item.at_strays i h.1, Item.at_allStrays is h.2⟩
termination_by structural is => is
end

theorem Decl.at_strays {d : Decl} (h : Part.AllRead p d.parts) : ∀ f ∈ d.strays, Fault.At p f := by
  cases d with
  | function f s body =>
      simp only [parts, Part.allRead_cons] at h
      exact Item.at_allStrays body h.2.2
  | _ => exact List.forall_mem_nil _

theorem Program.at_strays {t : Program} (h : Part.AllRead p t.parts) :
    ∀ f ∈ t.strays, Fault.At p f := by
  intro f hf
  obtain ⟨d, hd, hf⟩ := List.mem_flatMap.1 hf
  refine Decl.at_strays (fun x hx => h x ?_) f hf
  exact List.mem_flatMap.2 ⟨d, hd, hx⟩

/-! ## Statements -/

/-- A function whose loops have labels of their own, and whose jumps lie in loops. -/
def Decl.Labelled : Decl → Prop
  | .function _ _ body =>
      (∃ lo hi, LoopsGiven lo hi (Item.allLoops body)) ∧ Item.AllLoopsNamed none body
  | _ => True

namespace LoopNamer

variable {α β : Type} {loop label : Option String} {xs ys : List Fault}

/-- A run in the loop labelled `loop` over a text whose jumps outside of all loops have the faults
`strays`: in a loop it succeeds, and in no loop the first of them stops it. -/
def StopsAtFirst (loop : Option String) (strays : List Fault) (r : Except Fault α)
    (ok : α → Prop) : Prop :=
  Ensures r (fun f => loop = none ∧ strays.head? = some f)
    fun a => (loop = none → strays = []) ∧ ok a

namespace StopsAtFirst

theorem run_pure {n : Nat} {a : α} {ok : α × Nat → Prop} (h : ok (a, n)) :
    StopsAtFirst loop [] ((pure a : LoopNamer α).run n) ok :=
  Ensures.run_pure ⟨fun _ => rfl, h⟩

/-- A stray jump in the first part stops both, and otherwise the second part goes on. -/
theorem run_bind {x : LoopNamer α} {g : α → LoopNamer β} {n : Nat} {q : α × Nat → Prop}
    {ok : β × Nat → Prop} (hx : StopsAtFirst loop xs (x.run n) q)
    (hg : ∀ a m, q (a, m) → StopsAtFirst loop ys ((g a).run m) ok) :
    StopsAtFirst loop (xs ++ ys) ((x >>= g).run n) ok := by
  refine Ensures.run_bind (hx.mono (fun f ⟨hloop, hf⟩ => ⟨hloop, ?_⟩) fun _ => id) ?_
  · rw [List.head?_append, hf]
    rfl
  · rintro a m ⟨hxs, hq⟩
    refine (hg a m hq).mono (fun f ⟨hloop, hf⟩ => ⟨hloop, ?_⟩) fun b ⟨hys, hok⟩ => ⟨?_, hok⟩
    · rw [hxs hloop, List.nil_append, hf]
    · intro hloop
      rw [hxs hloop, hys hloop, List.append_nil]

theorem imp {r : Except Fault α} {ok ok' : α → Prop} (h : StopsAtFirst loop xs r ok)
    (hok : ∀ a, ok a → ok' a) : StopsAtFirst loop xs r ok' :=
  Ensures.imp h fun a ⟨hxs, ha⟩ => ⟨hxs, hok a ha⟩

/-- A last step at which nothing can stop the run. -/
theorem run_bind_pure {x : LoopNamer α} {g : α → β} {n : Nat} {ok : β × Nat → Prop}
    (hx : StopsAtFirst loop xs (x.run n) fun o => ok (g o.1, o.2)) :
    StopsAtFirst loop xs ((x >>= fun a => pure (g a)).run n) ok := by
  rw [← List.append_nil xs]
  exact run_bind hx fun a m hq => run_pure hq

/-- In a loop no jump stops the run. -/
theorem enclosed {word : String} {r : Except Fault α} {ok : α → Prop}
    (h : StopsAtFirst (some word) xs r ok) : StopsAtFirst loop [] r ok :=
  h.mono (fun _ ⟨hloop, _⟩ => nomatch hloop) fun _ ⟨_, hok⟩ => ⟨fun _ => rfl, hok⟩

end StopsAtFirst

theorem fresh_labels {word : String} (h : word ∈ loopWords) (n : Nat) :
    StopsAtFirst loop [] ((fresh word).run n) (fun o => LoopsGiven n o.2 [o.1]) :=
  .run_pure (.single word h n)

mutual
/-- Behind labelling only labels have changed, the new ones are distinct, and each jump carries the
label of the loop around it. -/
theorem stmt_labels :
    (s : Stmt) → ∀ (loop : Option String) (n : Nat),
      StopsAtFirst loop s.strays ((stmt loop s).run n) fun o =>
        o.1.unlabelled = s.unlabelled ∧ LoopsGiven n o.2 o.1.loops ∧ o.1.LoopsNamed loop
  | .breakLoop s l, some label, n | .continueLoop s l, some label, n =>
      Ensures.run_pure ⟨nofun, rfl, .nil (Nat.le_refl n), rfl, rfl⟩
  -- only a jump outside of all loops stops the pass
  | .breakLoop s l, none, n | .continueLoop s l, none, n => Ensures.run_throw ⟨rfl, rfl⟩
  | .whileLoop s l e body, loop, n => by
      refine .run_bind (fresh_labels (by simp [loopWords]) n) fun label n₁ hl => ?_
      refine .run_bind_pure ((stmt_labels body (some label) n₁).enclosed.imp ?_)
      rintro ⟨body', n₂⟩ ⟨hs, hb, hn⟩
      exact ⟨congrArg (Stmt.whileLoop s none e) hs, hl.append hb, rfl, hn⟩
  | .doLoop s l body e, loop, n => by
      refine .run_bind (fresh_labels (by simp [loopWords]) n) fun label n₁ hl => ?_
      refine .run_bind_pure ((stmt_labels body (some label) n₁).enclosed.imp ?_)
      rintro ⟨body', n₂⟩ ⟨hs, hb, hn⟩
      exact ⟨congrArg (Stmt.doLoop s none · e) hs, hl.append hb, rfl, hn⟩
  | .forLoop s l init e post body, loop, n => by
      refine .run_bind (fresh_labels (by simp [loopWords]) n) fun label n₁ hl => ?_
      refine .run_bind_pure ((stmt_labels body (some label) n₁).enclosed.imp ?_)
      rintro ⟨body', n₂⟩ ⟨hs, hb, hn⟩
      exact ⟨congrArg (Stmt.forLoop s none init e post) hs, hl.append hb, rfl, hn⟩
  | .ifThen s e yes, loop, n => by
      refine .run_bind_pure ((stmt_labels yes loop n).imp ?_)
      rintro ⟨yes', n₁⟩ ⟨hs, hl, hn⟩
      exact ⟨congrArg (Stmt.ifThen s e) hs, hl, hn⟩
  | .ifElse s e yes no, loop, n => by
      refine .run_bind (stmt_labels yes loop n) ?_
      rintro yes' n₁ ⟨hs, hl, hn⟩
      refine .run_bind_pure ((stmt_labels no loop n₁).imp ?_)
      rintro ⟨no', n₂⟩ ⟨hs', hl', hn'⟩
      exact ⟨by simp only [Stmt.unlabelled, hs, hs'], hl.append hl', hn, hn'⟩
  | .block s is, loop, n => by
      refine .run_bind_pure ((items_labels is loop n).imp ?_)
      rintro ⟨is', n₁⟩ ⟨hs, hl, hn⟩
      exact ⟨congrArg (Stmt.block s) hs, hl, hn⟩
  | .ret s e, loop, n | .expr s e, loop, n | .null s, loop, n =>
      .run_pure ⟨rfl, .nil (Nat.le_refl n), trivial⟩
termination_by structural s => s

theorem item_labels :
    (i : Item) → ∀ (loop : Option String) (n : Nat),
      StopsAtFirst loop i.strays ((item loop i).run n) fun o =>
        o.1.unlabelled = i.unlabelled ∧ LoopsGiven n o.2 o.1.loops ∧ o.1.LoopsNamed loop
  | .stmt s, loop, n => by
      refine .run_bind_pure ((stmt_labels s loop n).imp ?_)
      rintro ⟨s', n₁⟩ ⟨hs, hl, hn⟩
      exact ⟨congrArg Item.stmt hs, hl, hn⟩
  | .decl d, loop, n => .run_pure ⟨rfl, .nil (Nat.le_refl n), trivial⟩
termination_by structural i => i

theorem items_labels :
    (is : List Item) → ∀ (loop : Option String) (n : Nat),
      StopsAtFirst loop (Item.allStrays is) ((items loop is).run n) fun o =>
        Item.allUnlabelled o.1 = Item.allUnlabelled is ∧ LoopsGiven n o.2 (Item.allLoops o.1) ∧
          Item.AllLoopsNamed loop o.1
  | [], loop, n => .run_pure ⟨rfl, .nil (Nat.le_refl n), trivial⟩
  | i :: is, loop, n => by
      refine .run_bind (item_labels i loop n) ?_
      rintro i' n₁ ⟨hs, hl, hn⟩
      refine .run_bind_pure ((items_labels is loop n₁).imp ?_)
      rintro ⟨is', n₂⟩ ⟨hs', hl', hn'⟩
      exact ⟨by simp only [Item.allUnlabelled, hs, hs'], hl.append hl', hn, hn'⟩
termination_by structural is => is
end

/-! ## Programs -/

/-- Each function is labelled outside of all loops, with the numbers going on from the function
before it. -/
theorem decls_labels (ds : List Decl) :
    ∀ n : Nat, StopsAtFirst none (ds.flatMap Decl.strays) ((decls ds).run n) fun o =>
      o.1.map Decl.unlabelled = ds.map Decl.unlabelled ∧
        LoopsGiven n o.2 (o.1.flatMap Decl.loops) ∧ ∀ d ∈ o.1, d.Labelled := by
  induction ds with
  | nil => exact fun n => .run_pure ⟨rfl, .nil (Nat.le_refl n), List.forall_mem_nil _⟩
  | cons d ds ih =>
      intro n
      cases d with
      | var _ | prototype _ =>
          refine .run_bind_pure ((ih n).imp ?_)
          rintro ⟨ds', n₁⟩ ⟨hs, hg, hl⟩
          exact ⟨congrArg (List.cons _) hs, hg, List.forall_mem_cons.2 ⟨trivial, hl⟩⟩
      | function f s body =>
          refine .run_bind (items_labels body none n) ?_
          rintro body' n₁ ⟨hs, hb, hn⟩
          refine .run_bind_pure ((ih n₁).imp ?_)
          rintro ⟨ds', n₂⟩ ⟨hs', hg, hl⟩
          refine ⟨?_, hb.append hg, List.forall_mem_cons.2 ⟨⟨⟨n, n₁, hb⟩, hn⟩, hl⟩⟩
          simp only [List.map_cons, Decl.unlabelled, hs, hs']

end LoopNamer

namespace Program

/-- Labelling the loops of a program succeeds exactly if every jump lies in a loop; otherwise the
first jump outside of all loops is refused. -/
theorem nameLoops_stopsAtFirst (t : Program) :
    LoopNamer.StopsAtFirst none t.strays t.nameLoops fun t' =>
      t'.unlabelled = t.unlabelled ∧ (∃ hi, LoopsGiven 0 hi (t'.decls.flatMap Decl.loops)) ∧
        ∀ d ∈ t'.decls, d.Labelled := by
  have hrun : LoopNamer.StopsAtFirst none t.strays ((LoopNamer.decls t.decls).run' 0) fun ds =>
      ds.map Decl.unlabelled = t.decls.map Decl.unlabelled ∧
        (∃ hi, LoopsGiven 0 hi (ds.flatMap Decl.loops)) ∧ ∀ d ∈ ds, d.Labelled :=
    Ensures.map ((LoopNamer.decls_labels t.decls 0).imp fun _ ⟨hs, hg, hl⟩ => ⟨hs, ⟨_, hg⟩, hl⟩)
  refine Ensures.bind hrun ?_
  rintro ds ⟨hstrays, hs, hg, hl⟩
  exact .pure ⟨hstrays, congrArg (Program.mk t.span) hs, hg, hl⟩

/-- The loops of a program are labelled, or the program is refused at one of its spans. -/
theorem nameLoops_ensures {t : Program} (h : Part.AllRead p t.parts) :
    Ensures t.nameLoops (Fault.At p)
      (fun t' => SameParts t'.parts t.parts ∧ ∀ d ∈ t'.decls, d.Labelled) := by
  refine Ensures.mono t.nameLoops_stopsAtFirst ?_ ?_
  · rintro f ⟨-, hf⟩
    exact at_strays h f (List.mem_of_mem_head? hf)
  · rintro t' ⟨-, hs, -, hl⟩
    exact ⟨sameParts_of_unlabelled_eq hs, hl⟩

/-- No two loops of a program get the same label. -/
theorem nameLoops_apart (t : Program) :
    Answers t.nameLoops (fun t' => ∃ hi, LoopsGiven 0 hi (t'.decls.flatMap Decl.loops)) :=
  (Ensures.answers t.nameLoops_stopsAtFirst).imp fun _ ⟨_, _, hg, _⟩ => hg

end Program

end IntegerC
