import IntegerC.Proofs.Blame
import IntegerC.Proofs.Names
import IntegerC.Token.Lexer

set_option autoImplicit false

/-! # What the lexer ensures

A lexeme belongs to the class of its kind and is as long as it can be. The tokens of a text begin
inside the text, end with the end of the input, and spell identifiers with letters, digits and
underscores only. A text without tokens is refused at a piece that begins inside the text.
-/

namespace IntegerC

open Text

/-- A token of a text with lines `m`. -/
structure Token.Of (m : LineMap) (t : Token) : Prop where
  begins : m.Begins t.span
  plain : t.kind = .identifier → Plain t.text

/-- The tokens of a text with lines `m`, of which the last one is the end of the input. -/
structure TokensOf (m : LineMap) (ts : List Token) : Prop where
  each : ∀ t ∈ ts, t.Of m
  ended : ∃ t, ts.getLast? = some t ∧ t.kind = .endOfInput

/-- A list of tokens up to the only end of the input in it. -/
structure EndsOnce (ts : List Token) (last : Token) : Prop where
  kind : last.kind = .endOfInput
  once : ∀ t ∈ ts, t.kind ≠ .endOfInput

theorem TokensOf.cons {m : LineMap} {t : Token} {ts : List Token} (ht : t.Of m)
    (h : TokensOf m ts) : TokensOf m (t :: ts) where
  each := by simpa using ⟨ht, h.each⟩
  ended := by
    obtain ⟨e, he, hk⟩ := h.ended
    exact ⟨e, by simp [List.getLast?_cons, he], hk⟩

/-! ## Lexemes -/

/-- A word of letters, digits and underscores that does not begin with a digit and is no keyword. -/
structure IsIdentifier (word : String) : Prop where
  spelled : ∃ c cs, word.toList = c :: cs ∧ (isLetter c || c = '_') = true ∧
    ∀ d ∈ cs, isWordChar d = true
  free : Keyword.ofText? word = none

def Suffix.spellings : Suffix → List (List Char)
  | .plain => [[]]
  | .long => [['l'], ['L']]
  | .unsigned => [['u'], ['U']]
  | .unsignedLong =>
      [['u', 'l'], ['u', 'L'], ['U', 'l'], ['U', 'L'], ['l', 'u'], ['l', 'U'], ['L', 'u'], ['L', 'U']]

/-- The class of the lexemes of a kind. -/
def TokenKind.Spells (kind : TokenKind) (text : String) : Prop :=
  match kind with
  | .keyword k => text = k.text
  | .punct p => text = p.text
  | .constant s => ∃ digits letters, text.toList = digits ++ letters ∧ digits ≠ [] ∧
      (∀ d ∈ digits, isDigit d = true) ∧ letters ∈ s.spellings
  | .identifier => IsIdentifier text
  | .endOfInput => text = ""

/-- In front of `behind` no longer token begins where a token of the kind does. -/
def TokenKind.Maximal (kind : TokenKind) (behind : List Char) : Prop :=
  match kind with
  | .punct p => ∀ p' : Punct, p'.chars <+: p.chars ++ behind → p'.chars.length ≤ p.chars.length
  | .endOfInput => behind = []
  | _ => ∀ c ∈ behind.head?, isWordChar c = false

/-! ## Words -/

theorem isWordChar_of_first {c : Char} (h : (isLetter c || c = '_') = true) :
    isWordChar c = true := by
  simp only [Bool.or_eq_true, decide_eq_true_eq] at h
  rcases h with h | h <;> simp [isWordChar, h]

theorem isWordChar_of_mem_wordRest {c : Char} {cs : List Char} (h : c ∈ wordRest cs) :
    isWordChar c = true :=
  List.all_eq_true.1 List.all_takeWhile c h

theorem Keyword.word (k : Keyword) : ∃ c cs, k.text.toList = c :: cs ∧
    (isLetter c || c = '_') = true ∧ ∀ d ∈ cs, isWordChar d = true := by
  cases k <;> exact ⟨_, _, rfl, by decide, List.all_eq_true.1 (by decide)⟩

theorem IsIdentifier.plain {word : String} (h : IsIdentifier word) : Plain word := by
  obtain ⟨c, cs, hword, hc, hcs⟩ := h.spelled
  rw [Plain, hword]
  exact List.forall_mem_cons.2 ⟨isWordChar_of_first hc, hcs⟩

/-- Only the end of the input has an empty text. -/
theorem TokenKind.Spells.text_ne {kind : TokenKind} {text : String} (h : kind.Spells text)
    (hkind : kind ≠ .endOfInput) : text ≠ "" := by
  rintro rfl
  cases kind with
  | keyword k =>
      obtain ⟨c, cs, htext, -⟩ := k.word
      have hempty : k.text = "" := h.symm
      rw [hempty] at htext
      cases htext
  | punct p =>
      have hempty : p.text = "" := h.symm
      exact p.chars_ne_nil (String.ofList_eq_empty_iff.1 hempty)
  | constant s =>
      obtain ⟨digits, letters, htext, hdigits, -⟩ := h
      exact hdigits (List.append_eq_nil_iff.1 htext.symm).1
  | identifier =>
      obtain ⟨c, cs, htext, -⟩ := h.spelled
      cases htext
  | endOfInput => exact hkind rfl

/-! ## Suffixes -/

/-- A lower case letter is 32 behind its upper case one, and any other character is itself. -/
theorem toNat_lowerLetter (c : Char) :
    (lowerLetter c).toNat = c.toNat ∨ (lowerLetter c).toNat = c.toNat + 32 := by
  unfold lowerLetter
  split
  · rename_i hc
    simp only [Bool.and_eq_true, decide_eq_true_eq, Char.le_def, UInt32.le_iff_toNat_le] at hc
    have hz : c.toNat ≤ 90 := hc.2
    have hvalid : (c.toNat + 32).isValidChar := .inl (by omega)
    rw [Char.ofNat, dif_pos hvalid]
    exact .inr rfl
  · exact .inl rfl

/-- A lower-case letter of a suffix stands for itself and for the letter in upper case. -/
theorem eq_of_lowerLetter_eq {c low up : Char} (hup : up.toNat + 32 = low.toNat)
    (h : lowerLetter c = low) : c = low ∨ c = up := by
  rcases toNat_lowerLetter c with hc | hc
  · exact .inl (Char.toNat_inj.1 (by rw [← hc, h]))
  · refine .inr (Char.toNat_inj.1 ?_)
    rw [h] at hc
    omega

/-- A suffix in either case is one of the spellings of the suffix. -/
theorem mem_spellings {letters : List Char} {s : Suffix}
    (h : Suffix.ofLetters? (letters.map lowerLetter) = some s) : letters ∈ s.spellings := by
  have hl : ∀ {c}, lowerLetter c = 'l' → c = 'l' ∨ c = 'L' := eq_of_lowerLetter_eq (by decide)
  have hu : ∀ {c}, lowerLetter c = 'u' → c = 'u' ∨ c = 'U' := eq_of_lowerLetter_eq (by decide)
  generalize hlow : letters.map lowerLetter = low at h
  unfold Suffix.ofLetters? at h
  split at h <;> cases h <;>
    simp only [List.map_eq_nil_iff, List.map_eq_cons_iff] at hlow
  · simp [hlow, Suffix.spellings]
  · obtain ⟨c, _, rfl, hc, rfl⟩ := hlow
    rcases hl hc with rfl | rfl <;> decide
  · obtain ⟨c, _, rfl, hc, rfl⟩ := hlow
    rcases hu hc with rfl | rfl <;> decide
  · obtain ⟨c, _, rfl, hc, d, _, rfl, hd, rfl⟩ := hlow
    rcases hu hc with rfl | rfl <;> rcases hl hd with rfl | rfl <;> decide
  · obtain ⟨c, _, rfl, hc, d, _, rfl, hd, rfl⟩ := hlow
    rcases hl hc with rfl | rfl <;> rcases hu hd with rfl | rfl <;> decide

/-! ## What begins at a character -/

/-- A number is made of digits and of the letters of its suffix. -/
theorem spells_constant {c : Char} {cs : List Char} {s : Suffix} (hc : isDigit c = true)
    (h : suffixOf? (c :: cs) = some s) :
    (TokenKind.constant s).Spells (String.ofList (c :: cs)) := by
  refine ⟨(c :: cs).takeWhile isDigit, (c :: cs).dropWhile isDigit, ?_, ?_, ?_, mem_spellings h⟩
  · rw [String.toList_ofList, List.takeWhile_append_dropWhile]
  · simp [hc]
  · exact fun d hd => List.all_eq_true.1 List.all_takeWhile d hd

/-- A word is a keyword or an identifier. -/
theorem spells_wordKind {c : Char} {cs : List Char} (hc : (isLetter c || c = '_') = true)
    (hcs : ∀ d ∈ cs, isWordChar d = true) :
    (wordKind (c :: cs)).Spells (String.ofList (c :: cs)) := by
  unfold wordKind
  split
  · rename_i k hk
    have htext := List.find?_some (p := fun k : Keyword => k.text = String.ofList (c :: cs)) hk
    exact (of_decide_eq_true htext).symm
  · rename_i hfree
    exact ⟨⟨c, cs, String.toList_ofList, hc, hcs⟩, hfree⟩

theorem wordKind_ne_endOfInput (lexeme : List Char) : wordKind lexeme ≠ .endOfInput := by
  unfold wordKind
  split <;> nofun

theorem wordKind_maximal (lexeme : List Char) {behind : List Char}
    (h : ∀ c ∈ behind.head?, isWordChar c = false) : (wordKind lexeme).Maximal behind := by
  unfold wordKind
  split <;> exact h

/-- The punctuators are listed by length, so the first one that begins a text is the longest. -/
theorem Punct.length_le_of_longest? {cs : List Char} {p p' : Punct} (h : longest? cs = some p)
    (hp' : p'.chars <+: cs) : p'.chars.length ≤ p.chars.length := by
  obtain ⟨-, as, bs, hall, has⟩ := List.find?_eq_some_iff_append.1 h
  have hsorted : all.Pairwise fun p p' => p'.chars.length ≤ p.chars.length := by decide
  rw [hall, List.pairwise_append] at hsorted
  have hmem := mem_all p'
  rw [hall, List.mem_append, List.mem_cons] at hmem
  rcases hmem with hmem | rfl | hmem
  · have hnot := has p' hmem
    rw [List.isPrefixOf_iff_prefix.2 hp'] at hnot
    cases hnot
  · exact Nat.le_refl _
  · exact (List.pairwise_cons.1 hsorted.2.1).1 p' hmem

/-- A token at a character has a lexeme of its class, which is as long as it can be. -/
theorem of_at_eq_token {fresh : Bool} {c : Char} {cs : List Char} {kind : TokenKind}
    {more : Nat} (h : Piece.at fresh c cs = .token kind more) :
    kind ≠ .endOfInput ∧ ∃ rest behind, cs = rest ++ behind ∧ more = rest.length ∧
      kind.Spells (String.ofList (c :: rest)) ∧ kind.Maximal behind := by
  -- a word goes on up to the first character that no word has
  have hword : cs = wordRest cs ++ cs.dropWhile isWordChar := List.takeWhile_append_dropWhile.symm
  have hends : ∀ d ∈ (cs.dropWhile isWordChar).head?, isWordChar d = false := by
    intro d hd
    have h := List.head?_dropWhile_not isWordChar cs
    rw [Option.mem_def.1 hd] at h
    simpa using h
  unfold Piece.at at h
  split at h
  · cases h
  split at h
  · cases h
  split at h
  · split at h <;> cases h
  split at h
  · rename_i hc
    cases h
    exact ⟨wordKind_ne_endOfInput _, _, _, hword, rfl,
      spells_wordKind hc fun d hd => isWordChar_of_mem_wordRest hd, wordKind_maximal _ hends⟩
  split at h
  · rename_i hc
    split at h <;> cases h
    rename_i s hs
    exact ⟨nofun, _, _, hword, rfl, spells_constant hc hs, hends⟩
  · split at h <;> cases h
    rename_i p hp
    -- of the operators that fit the longest one is taken
    have hbegins := List.find?_some (p := fun p : Punct => p.chars.isPrefixOf (c :: cs)) hp
    obtain ⟨behind, hbehind⟩ := List.isPrefixOf_iff_prefix.1 hbegins
    obtain ⟨d, rest, hchars⟩ := List.exists_cons_of_ne_nil p.chars_ne_nil
    rw [hchars] at hbehind
    obtain ⟨rfl, rfl⟩ := List.cons.inj hbehind
    refine ⟨nofun, rest, behind, rfl, by rw [hchars]; rfl, ?_, fun p' hp' => ?_⟩
    · rw [← hchars]
      rfl
    · rw [hchars] at hp'
      exact Punct.length_le_of_longest? hp hp'

theorem plain_of_at_eq_token {fresh : Bool} {c : Char} {cs : List Char} {more : Nat}
    (h : Piece.at fresh c cs = .token .identifier more) :
    Plain (String.ofList (c :: cs.take more)) := by
  obtain ⟨-, rest, behind, rfl, rfl, hspells, -⟩ := of_at_eq_token h
  rw [List.take_left]
  exact IsIdentifier.plain hspells

/-! ## Faults -/

/-- A piece of a text is refused for a cause that a text can give rise to. -/
theorem fromText_of_at_eq_fault {fresh : Bool} {c : Char} {cs : List Char} {cause : Cause}
    {width : Nat} (h : Piece.at fresh c cs = .fault cause width) : cause.FromText := by
  unfold Piece.at at h
  split at h
  · cases h
  split at h
  · cases h
  split at h
  · split at h
    · cases h
    · cases h; decide
  split at h
  · cases h
  split at h
  · split at h
    · cases h
    · cases h; exact ⟨by simp [Cause.category, Category.ofText], by simp⟩
  · split at h
    · cases h
    · cases h; exact ⟨by simp [Cause.category, Category.ofText], by simp⟩

/-! ## The walk -/

/-- By induction on the characters: what is skipped belongs to a piece that was looked at, and the
offset of the rest is known from the length of the text. -/
theorem scan_ensures (m : LineMap) (cs : List Char) :
    ∀ (start : Nat) (fresh : Bool) (skip : Nat), start + unitsOf cs = m.size →
      Ensures (scan m start fresh skip cs) (Fault.At m.Begins) (TokensOf m) := by
  -- over the characters, whatever the offset, since a piece is skipped one character at a time
  induction cs with
  | nil =>
      intro start fresh skip hsize
      rw [scan]
      have hstart : start ≤ m.size := by simp only [unitsOf_nil] at hsize; omega
      have ht : (Token.endAt (m.position start)).Of m :=
        ⟨⟨start, hstart, rfl⟩, by simp [Token.endAt]⟩
      exact .pure ⟨by simpa using ht, _, rfl, rfl⟩
  | cons c cs ih =>
      intro start fresh skip hsize
      rw [unitsOf_cons] at hsize
      have hnext : start + units c + unitsOf cs = m.size := by omega
      cases skip with
      | succ skip =>
          rw [scan]
          exact ih _ _ _ hnext
      | zero =>
          rw [scan]
          have hstart : start ≤ m.size := by omega
          split
          · rename_i cause width h
            exact .error (.of (fromText_of_at_eq_fault h) (m.begins_span hstart _))
          · exact ih _ _ _ hnext
          · rename_i kind more h
            refine .map ((ih _ _ _ hnext).imp fun ts hts => hts.cons ⟨m.begins_span hstart _, ?_⟩)
            rintro rfl
            exact plain_of_at_eq_token h

/-- The characters of a text that is written out in parts. Without it the kernel decodes a literal
from its bytes, each of which it looks up from the first one on. -/
theorem toList_append_eq {s t : String} {cs ds : List Char} (hs : s.toList = cs)
    (ht : t.toList = ds) : (s ++ t).toList = cs ++ ds := by
  rw [String.toList_append, hs, ht]

/-- Either the text is refused at a piece that begins in it, or it splits into tokens. -/
theorem tokens_ensures (text : String) :
    Ensures (tokens text) (Fault.At (LineMap.ofChars text.toList).Begins)
      (TokensOf (LineMap.ofChars text.toList)) :=
  scan_ensures _ _ 0 true 0 (by simp [LineMap.ofChars])

end IntegerC
