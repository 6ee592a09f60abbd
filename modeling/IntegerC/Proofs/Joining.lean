import IntegerC.Proofs.Names
import IntegerC.Text.Lines

set_option autoImplicit false

/-! # Joined texts

A text that is joined from pieces gives the pieces back, as long as no piece has the character in it
that the separator begins with. So a text gives back its lines, and digits give back their number.
-/

namespace IntegerC

/-! ## Lists -/

/-- A list is given back by images that tell its members apart. -/
theorem eq_of_map_eq {α β : Type} {f : α → β} {xs ys : List α}
    (hf : ∀ x ∈ xs, ∀ y ∈ ys, f x = f y → x = y) (h : xs.map f = ys.map f) : xs = ys := by
  induction xs generalizing ys with
  | nil => exact (List.map_eq_nil_iff.1 h.symm).symm
  | cons x xs ih =>
      cases ys with
      | nil => cases h
      | cons y ys =>
          obtain ⟨hxy, hmap⟩ := List.cons.inj h
          rw [hf x List.mem_cons_self y List.mem_cons_self hxy, ih (fun x hx y hy =>
            hf x (List.mem_cons_of_mem _ hx) y (List.mem_cons_of_mem _ hy)) hmap]

/-- A list is split at its first `c` in one way. -/
theorem eq_of_append_cons_eq_first {α : Type} {c : α} {as bs ds es : List α} (ha : c ∉ as)
    (hb : c ∉ bs) (h : as ++ c :: ds = bs ++ c :: es) : as = bs ∧ ds = es := by
  have hreverse := congrArg List.reverse h
  simp only [List.reverse_append, List.reverse_cons, List.append_assoc, List.singleton_append]
    at hreverse
  obtain ⟨hd, ha⟩ := eq_of_append_cons_eq (by simpa using ha) (by simpa using hb) hreverse
  exact ⟨List.reverse_inj.1 ha, List.reverse_inj.1 hd⟩

/-- The members that stand first and have a property are told apart from what stands behind them. -/
theorem append_inj_of_forall {α : Type} {p : α → Prop} [DecidablePred p] {xs xs' ys ys' : List α}
    (hx : ∀ x ∈ xs, p x) (hx' : ∀ x ∈ xs', p x) (hy : ∀ y ∈ ys.head?, ¬ p y)
    (hy' : ∀ y ∈ ys'.head?, ¬ p y) (h : xs ++ ys = xs' ++ ys') : xs = xs' ∧ ys = ys' := by
  have htake : ∀ {xs ys : List α}, (∀ x ∈ xs, p x) → (∀ y ∈ ys.head?, ¬ p y) →
      (xs ++ ys).takeWhile (fun x => p x) = xs := by
    intro xs ys hx hy
    have hnone : ys.takeWhile (fun y => p y) = [] := by
      cases ys with
      | nil => rfl
      | cons y ys => exact List.takeWhile_cons_of_neg (by simpa using hy y rfl)
    rw [List.takeWhile_append_of_pos fun x hmem => decide_eq_true (hx x hmem), hnone,
      List.append_nil]
  have hsame : xs = xs' := by rw [← htake hx hy, h, htake hx' hy']
  rw [hsame] at h
  exact ⟨hsame, List.append_cancel_left h⟩

/-! ## Separators -/

section Separated

variable {α : Type} {c : α} {rest : List α} {xs ys : List (List α)}

theorem intercalate_cons_cons_eq (x y : List α) (ys : List (List α)) :
    (c :: rest).intercalate (x :: y :: ys) =
      x ++ c :: (rest ++ (c :: rest).intercalate (y :: ys)) := by
  rw [List.intercalate_cons_cons, List.append_assoc, List.cons_append]

/-- A separator stands between any two pieces. -/
theorem intercalate_cons_cons_ne {x : List α} (hx : c ∉ x) (y z : List α) (ys : List (List α)) :
    (c :: rest).intercalate (y :: z :: ys) ≠ x := by
  rintro rfl
  rw [intercalate_cons_cons_eq] at hx
  simp at hx

/-- Some pieces in a row are those that were joined. -/
theorem eq_of_intercalate_eq (hx : ∀ x ∈ xs, c ∉ x) (hy : ∀ y ∈ ys, c ∉ y) (hxs : xs ≠ [])
    (hys : ys ≠ []) (h : (c :: rest).intercalate xs = (c :: rest).intercalate ys) : xs = ys := by
  induction xs generalizing ys with
  | nil => exact absurd rfl hxs
  | cons x xs ih =>
      obtain ⟨y, ys, rfl⟩ := List.exists_cons_of_ne_nil hys
      obtain ⟨hxc, hxs'⟩ := List.forall_mem_cons.1 hx
      obtain ⟨hyc, hys'⟩ := List.forall_mem_cons.1 hy
      cases xs with
      | nil =>
          cases ys with
          | nil => simpa using h
          | cons z ys => exact absurd (by simpa using h.symm) (intercalate_cons_cons_ne hxc y z ys)
      | cons z xs =>
          cases ys with
          | nil => exact absurd (by simpa using h) (intercalate_cons_cons_ne hyc x z xs)
          | cons w ys =>
              rw [intercalate_cons_cons_eq, intercalate_cons_cons_eq] at h
              obtain ⟨hxy, hrest⟩ := eq_of_append_cons_eq_first hxc hyc h
              rw [hxy, ih hxs' hys' (by simp) (by simp) (List.append_cancel_left hrest)]

/-- No pieces at all are joined to the same list as one piece that is empty. -/
theorem intercalate_eq_nil (h : (c :: rest).intercalate xs = []) : xs = [] ∨ xs = [[]] := by
  cases xs with
  | nil => exact .inl rfl
  | cons x xs =>
      cases xs with
      | nil => exact .inr (by simpa using h)
      | cons z xs => exact absurd h (intercalate_cons_cons_ne (by simp) x z xs)

/-- Pieces in a row are those that were joined, if not one of the lists has only an empty piece
where the other has none. -/
theorem eq_of_intercalate_eq_of_ne (hx : ∀ x ∈ xs, c ∉ x) (hy : ∀ y ∈ ys, c ∉ y)
    (hxs : xs = [] → ys ≠ [[]]) (hys : ys = [] → xs ≠ [[]])
    (h : (c :: rest).intercalate xs = (c :: rest).intercalate ys) : xs = ys := by
  by_cases hxs' : xs = []
  · subst hxs'
    exact ((intercalate_eq_nil h.symm).resolve_right (hxs rfl)).symm
  · by_cases hys' : ys = []
    · subst hys'
      exact (intercalate_eq_nil h).resolve_right (hys rfl)
    · exact eq_of_intercalate_eq hx hy hxs' hys' h

end Separated

/-- The same for texts. -/
theorem eq_of_joined_eq {separator : String} {c : Char} {rest : List Char} {xs ys : List String}
    (hs : separator.toList = c :: rest) (hx : ∀ x ∈ xs, c ∉ x.toList) (hy : ∀ y ∈ ys, c ∉ y.toList)
    (hxs : xs = [] → ys ≠ [""]) (hys : ys = [] → xs ≠ [""])
    (h : separator.intercalate xs = separator.intercalate ys) : xs = ys := by
  have hinj : ∀ {zs ws : List String}, zs.map String.toList = ws.map String.toList → zs = ws :=
    eq_of_map_eq fun _ _ _ _ => String.toList_inj.1
  have hlists := congrArg String.toList h
  rw [String.toList_intercalate, String.toList_intercalate, hs] at hlists
  have hempty : ∀ {zs ws : List String}, (zs = [] → ws ≠ [""]) →
      zs.map String.toList = [] → ws.map String.toList ≠ [""].map String.toList :=
    fun hne hnil e => hne (List.map_eq_nil_iff.1 hnil) (hinj e)
  exact hinj (eq_of_intercalate_eq_of_ne (List.forall_mem_map.2 hx) (List.forall_mem_map.2 hy)
    (hempty hxs) (hempty hys) hlists)

/-! ## Numbers -/

theorem repr_inj {m n : Nat} (h : m.repr = n.repr) : m = n := by
  have hdigits := congrArg String.toList h
  rw [Nat.toList_repr, Nat.toList_repr] at hdigits
  exact toDigits_inj hdigits

theorem minus_notMem_repr (n : Nat) : '-' ∉ n.repr.toList := by
  intro h
  rw [Nat.toList_repr] at h
  exact absurd (isWordChar_of_mem_toDigits h) (by decide)

/-- Decimal spellings of numbers are different for different numbers. -/
theorem toString_int_inj {m n : Int} (h : toString m = toString n) : m = n := by
  have hminus : ∀ a b : Nat, "-" ++ a.repr ≠ b.repr := by
    intro a b e
    apply minus_notMem_repr b
    rw [← e, String.toList_append]
    exact List.mem_append_left _ (by decide)
  cases m with
  | ofNat a =>
      cases n with
      | ofNat b => exact congrArg Int.ofNat (repr_inj h)
      | negSucc b => exact absurd h.symm (hminus (b + 1) a)
  | negSucc a =>
      cases n with
      | ofNat b => exact absurd h (hminus (a + 1) b)
      | negSucc b =>
          have hab := repr_inj ((String.append_right_inj "-").1 h)
          exact congrArg Int.negSucc (Nat.succ.inj hab)

/-- The characters that numbers are written with. -/
def isNumeral (c : Char) : Bool := Text.isDigit c || c = '-'

/-- A decimal spelling is made of digits, with a sign at most. -/
theorem isNumeral_of_mem_toString {n : Int} {c : Char} (h : c ∈ (toString n).toList) :
    isNumeral c = true := by
  have hrepr : ∀ m : Nat, c ∈ m.repr.toList → isNumeral c = true := by
    intro m hm
    rw [Nat.toList_repr] at hm
    simp [isNumeral, isDigit_of_mem_toDigits hm]
  cases n with
  | ofNat m => exact hrepr m h
  | negSucc m =>
      have hminus : toString (Int.negSucc m) = "-" ++ (m + 1).repr := rfl
      rw [hminus, String.toList_append, List.mem_append] at h
      rcases h with h | h
      · obtain rfl : c = '-' := by simpa using h
        decide
      · exact hrepr _ h

/-! ## Lines -/

namespace Text

/-- A line that has no end of a line in it. -/
def Unbroken (line : String) : Prop := '\n' ∉ line.toList ∧ '\r' ∉ line.toList

/-- A text of lines gives the lines back. Only that of one empty line is also that of no lines. -/
theorem LineEnding.eq_of_unlines_eq {e : LineEnding} {xs ys : List String}
    (hx : ∀ x ∈ xs, Unbroken x) (hy : ∀ y ∈ ys, Unbroken y) (hxs : xs ≠ [""]) (hys : ys ≠ [""])
    (h : e.unlines xs = e.unlines ys) : xs = ys := by
  have hlines : e.text.intercalate xs = e.text.intercalate ys :=
    (String.append_left_inj e.text).1 h
  cases e with
  | lf =>
      have hlf : LineEnding.lf.text.toList = ['\n'] := by decide
      exact eq_of_joined_eq hlf (fun x hmem => (hx x hmem).1)
        (fun y hmem => (hy y hmem).1) (fun _ => hys) (fun _ => hxs) hlines
  | crlf =>
      have hcrlf : LineEnding.crlf.text.toList = ['\r', '\n'] := by decide
      exact eq_of_joined_eq hcrlf (fun x hmem => (hx x hmem).2)
        (fun y hmem => (hy y hmem).2) (fun _ => hys) (fun _ => hxs) hlines

end Text

end IntegerC
