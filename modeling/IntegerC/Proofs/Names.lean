import IntegerC.Loop
import IntegerC.Scope
import IntegerC.Text.Character
import IntegerC.ThreeAddress.Code

set_option autoImplicit false

/-! # Made names

Unique names, temporaries and labels are made of a word, a dot and a number; the words of a source
text have no dot. So a made name is never a word of the text, and two made names agree only in both
parts (`numbered_inj`). The labels of loops fit the same pattern, because the word in front of a
loop becomes part of the word of its label.
-/

namespace IntegerC

/-- The name made of `word` and `n`. -/
def numbered (word : String) (n : Nat) : String := s!"{word}.{n}"

/-- A word as the source text has it: of letters, digits and underscores. -/
def Plain (word : String) : Prop := ∀ c ∈ word.toList, Text.isWordChar c = true

instance (word : String) : Decidable (Plain word) := List.decidableBAll _ word.toList

theorem Plain.dot_notMem {word : String} (h : Plain word) : '.' ∉ word.toList :=
  fun hm => absurd (h _ hm) (by decide)

theorem toList_numbered (word : String) (n : Nat) :
    (numbered word n).toList = word.toList ++ '.' :: Nat.toDigits 10 n := by
  have e : numbered word n = word ++ "." ++ toString n := rfl
  rw [e, Nat.toString_eq_repr, String.toList_append, String.toList_append, Nat.toList_repr,
    List.append_assoc]
  rfl

theorem not_plain_numbered (word : String) (n : Nat) : ¬ Plain (numbered word n) := by
  intro h
  apply h.dot_notMem
  rw [toList_numbered]
  simp

theorem dot_notMem_toDigits (n : Nat) : '.' ∉ Nat.toDigits 10 n := by
  intro h
  have hd := Nat.isDigit_of_mem_toDigits (by decide) (by decide) h
  exact absurd hd (by decide)

theorem isDigit_of_mem_toDigits {n : Nat} {c : Char} (h : c ∈ Nat.toDigits 10 n) :
    Text.isDigit c = true := by
  have hd := Nat.isDigit_of_mem_toDigits (by decide) (by decide) h
  simpa [Text.isDigit, Char.isDigit, Char.le_def] using hd

theorem isWordChar_of_mem_toDigits {n : Nat} {c : Char} (h : c ∈ Nat.toDigits 10 n) :
    Text.isWordChar c = true := by
  simp [Text.isWordChar, isDigit_of_mem_toDigits h]

theorem toDigits_inj {m n : Nat} (h : Nat.toDigits 10 m = Nat.toDigits 10 n) : m = n := by
  rw [← Nat.ofDigitChars_ten_toDigits (n := m), h, Nat.ofDigitChars_ten_toDigits]

/-- A list is split at its last `c` in one way. -/
theorem eq_of_append_cons_eq {α : Type} {c : α} {as bs ds es : List α} (hd : c ∉ ds) (he : c ∉ es)
    (h : as ++ c :: ds = bs ++ c :: es) : as = bs ∧ ds = es := by
  rcases List.append_eq_append_iff.1 h with ⟨l, rfl, h'⟩ | ⟨l, rfl, h'⟩
  · cases l with
    | nil => simpa using h'
    | cons a l =>
        obtain ⟨rfl, rfl⟩ : c = a ∧ ds = l ++ c :: es := by simpa using h'
        exact absurd (by simp) hd
  · cases l with
    | nil => simpa using h'.symm
    | cons a l =>
        obtain ⟨rfl, rfl⟩ : c = a ∧ es = l ++ c :: ds := by simpa using h'
        exact absurd (by simp) he

/-- A numbered name gives back its word and its number, since no dot stands in a number. -/
theorem numbered_inj {word word' : String} {n n' : Nat} :
    numbered word n = numbered word' n' ↔ word = word' ∧ n = n' := by
  constructor
  · intro h
    have h' := congrArg String.toList h
    rw [toList_numbered, toList_numbered] at h'
    obtain ⟨hw, hn⟩ := eq_of_append_cons_eq (dot_notMem_toDigits n) (dot_notMem_toDigits n') h'
    exact ⟨String.toList_inj.1 hw, toDigits_inj hn⟩
  · rintro ⟨rfl, rfl⟩
    rfl

/-- What stands before a made name becomes part of its word. -/
theorem append_numbered (front word : String) (n : Nat) :
    front ++ numbered word n = numbered (front ++ word) n := by
  apply String.toList_inj.1
  simp [toList_numbered]

/-- The word that a name was made of: the name without the dot and the number at its end. A name
without them stands for itself. -/
def stem (name : String) : String :=
  match name.toList.reverse.dropWhile Char.isDigit with
  | '.' :: rest => String.ofList rest.reverse
  | _ => name

/-- The stem of a numbered name is its word. -/
@[simp] theorem stem_numbered (word : String) (n : Nat) : stem (numbered word n) = word := by
  have hdigits : ∀ c ∈ (Nat.toDigits 10 n).reverse, c.isDigit = true := fun c hc =>
    Nat.isDigit_of_mem_toDigits (by decide) (by decide) (List.mem_reverse.1 hc)
  have hdrop : (numbered word n).toList.reverse.dropWhile Char.isDigit =
      '.' :: word.toList.reverse := by
    rw [toList_numbered, List.reverse_append, List.reverse_cons, List.append_assoc,
      List.dropWhile_append_of_pos hdigits]
    rfl
  rw [stem, hdrop]
  simp

theorem stem_of_plain {name : String} (h : Plain name) : stem name = name := by
  unfold stem
  split
  · rename_i rest hdrop
    have hmem : '.' ∈ name.toList.reverse.dropWhile Char.isDigit := by simp [hdrop]
    exact absurd (List.mem_reverse.1 ((List.dropWhile_sublist _).subset hmem)) h.dot_notMem
  · rfl

/-- A word of the text, or a name made of such a word. -/
def Named (name : String) : Prop :=
  ∃ word, Plain word ∧ (name = word ∨ ∃ n, name = numbered word n)

theorem Named.of_plain {name : String} (h : Plain name) : Named name := ⟨name, h, .inl rfl⟩

theorem named_numbered {word : String} (h : Plain word) (n : Nat) : Named (numbered word n) :=
  ⟨word, h, .inr ⟨n, rfl⟩⟩

/-- Named symbols are made of word characters and dots. -/
theorem Named.mem_toList {name : String} (h : Named name) {c : Char} (hc : c ∈ name.toList) :
    Text.isWordChar c = true ∨ c = '.' := by
  obtain ⟨word, hw, rfl | ⟨n, rfl⟩⟩ := h
  · exact .inl (hw c hc)
  · rw [toList_numbered, List.mem_append, List.mem_cons] at hc
    rcases hc with hc | hc | hc
    · exact .inl (hw c hc)
    · exact .inr hc
    · exact .inl (isWordChar_of_mem_toDigits hc)

/-- Only digits stand behind a dot at the beginning of a name. -/
theorem Named.toList_ne {name : String} (h : Named name) {c : Char} (hc : c.isDigit = false)
    (rest : List Char) : name.toList ≠ '.' :: c :: rest := by
  intro e
  obtain ⟨word, hw, rfl | ⟨n, rfl⟩⟩ := h
  · apply hw.dot_notMem
    rw [e]
    exact List.mem_cons_self
  · rw [toList_numbered] at e
    cases hlist : word.toList with
    | nil =>
        rw [hlist] at e
        have hmem : c ∈ Nat.toDigits 10 n := by
          rw [(List.cons.inj e).2]
          exact List.mem_cons_self
        rw [Nat.isDigit_of_mem_toDigits (by decide) (by decide) hmem] at hc
        cases hc
    | cons d ds =>
        rw [hlist] at e
        apply hw.dot_notMem
        rw [hlist, (List.cons.inj e).1]
        exact List.mem_cons_self

/-! ## Ranges of numbers -/

/-- Made names, no two of them the same, of words with `words` and of numbers from `lo` up to but
not including `hi`. -/
structure Numbered (words : String → Prop) (lo hi : Nat) (names : List String) : Prop where
  le : lo ≤ hi
  nodup : names.Nodup
  made : ∀ x ∈ names, ∃ word n, words word ∧ lo ≤ n ∧ n < hi ∧ x = numbered word n

namespace Numbered

variable {words : String → Prop} {lo mid hi : Nat} {xs ys : List String}

theorem nil (h : lo ≤ hi) : Numbered words lo hi [] := ⟨h, List.nodup_nil, by simp⟩

theorem single (word : String) (h : words word) (n : Nat) :
    Numbered words n (n + 1) [numbered word n] := by
  refine ⟨by omega, by simp, fun x hx => ?_⟩
  exact ⟨word, n, h, by omega, by omega, by simpa using hx⟩

/-- Names of different ranges are different, whatever their words are. -/
theorem append (hx : Numbered words lo mid xs) (hy : Numbered words mid hi ys) :
    Numbered words lo hi (xs ++ ys) := by
  refine ⟨Nat.le_trans hx.le hy.le, List.nodup_append.2 ⟨hx.nodup, hy.nodup, ?_⟩, ?_⟩
  · intro x hxs y hys e
    obtain ⟨w, n, -, -, hn, rfl⟩ := hx.made x hxs
    obtain ⟨w', n', -, hn', -, rfl⟩ := hy.made y hys
    have := (numbered_inj.1 e).2
    omega
  · intro x h
    rcases List.mem_append.1 h with h | h
    · obtain ⟨w, n, hw, h₁, h₂, rfl⟩ := hx.made x h
      exact ⟨w, n, hw, h₁, Nat.lt_of_lt_of_le h₂ hy.le, rfl⟩
    · obtain ⟨w, n, hw, h₁, h₂, rfl⟩ := hy.made x h
      exact ⟨w, n, hw, Nat.le_trans hx.le h₁, h₂, rfl⟩

theorem perm (h : Numbered words lo hi xs) (hp : xs.Perm ys) : Numbered words lo hi ys :=
  ⟨h.le, hp.nodup_iff.1 h.nodup, fun x hx => h.made x (hp.mem_iff.2 hx)⟩

theorem sublist (h : Numbered words lo hi ys) (hs : xs.Sublist ys) : Numbered words lo hi xs :=
  ⟨h.le, h.nodup.sublist hs, fun x hx => h.made x (hs.subset hx)⟩

theorem not_plain (h : Numbered words lo hi xs) : ∀ x ∈ xs, ¬ Plain x := by
  intro x hx
  obtain ⟨w, n, -, -, -, rfl⟩ := h.made x hx
  exact not_plain_numbered w n

end Numbered

/-! ## The names that passes make -/

theorem temporaryName_eq (n : Nat) : ThreeAddress.temporaryName n = numbered "tmp" n := rfl

theorem temporaryName_inj {m n : Nat} :
    ThreeAddress.temporaryName m = ThreeAddress.temporaryName n ↔ m = n := by
  rw [temporaryName_eq, temporaryName_eq, numbered_inj]
  exact and_iff_right rfl

/-- The words that loops are named after. -/
def loopWords : List String := ["while", "do", "for"]

end IntegerC
