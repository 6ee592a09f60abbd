import IntegerC.Proofs.Grammar.Soundness
import IntegerC.Proofs.Tiling

set_option autoImplicit false

/-! # Lexemes and their spelling

A token at a character is a spelling of its kind in front of something that does not continue it:
`Piece.at_eq_token_iff`. Of what stands behind only the first character matters, and a blank
continues nothing. A lexeme is well spelled if its text alone is a token of its kind.
-/

namespace IntegerC

open Text

/-! ## Well spelled lexemes -/

def Suffix.letters : Suffix → List Char
  | .plain => []
  | .long => ['l']
  | .unsigned => ['u']
  | .unsignedLong => ['u', 'l']

namespace Lexeme

def keyword (k : Keyword) : Lexeme := ⟨.keyword k, k.text⟩

def punct (p : Punct) : Lexeme := ⟨.punct p, p.text⟩

def identifier (word : String) : Lexeme := ⟨.identifier, word⟩

/-- The digits of a number and a suffix. -/
def constant (n : Nat) (s : Suffix) : Lexeme :=
  ⟨.constant s, String.ofList (Nat.toDigits 10 n ++ s.letters)⟩

/-- A lexeme whose text alone is a token of its kind. -/
inductive Spelled : Lexeme → Prop
  | keyword (k : Keyword) : Spelled (keyword k)
  | punct (p : Punct) : Spelled (punct p)
  | identifier {word : String} (h : IsIdentifier word) : Spelled (identifier word)
  | constant (n : Nat) (s : Suffix) : Spelled (constant n s)

end Lexeme

/-! ## Characters -/

/-- Word characters lie between `0` and `z`. -/
theorem toNat_of_isWordChar {c : Char} (h : isWordChar c = true) :
    48 ≤ c.toNat ∧ c.toNat ≤ 122 := by
  simp only [isWordChar, isLetter, isDigit, Bool.or_eq_true, Bool.and_eq_true, decide_eq_true_eq,
    Char.le_def, UInt32.le_iff_toNat_le] at h
  rcases h with ((h | h) | h) | rfl
  · exact ⟨Nat.le_trans (by decide) h.1, h.2⟩
  · exact ⟨Nat.le_trans (by decide) h.1, Nat.le_trans h.2 (by decide)⟩
  · exact ⟨h.1, Nat.le_trans h.2 (by decide)⟩
  · decide

theorem isBlank_of_isWordChar {c : Char} (h : isWordChar c = true) : isBlank c = false := by
  have hc := toNat_of_isWordChar h
  have hne : c ≠ ' ' := fun e => by rw [e] at h; cases h
  simp only [isBlank, wideBlanks, hne, decide_false, Bool.false_or, Bool.or_eq_false_iff,
    Bool.and_eq_false_iff, decide_eq_false_iff_not, List.contains_eq_mem, List.mem_cons,
    List.not_mem_nil, or_false]
  omega

/-- A word ends where a character that belongs to none stands. -/
theorem wordRest_append {cs rest : List Char} (hcs : ∀ d ∈ cs, isWordChar d = true)
    (hrest : ∀ d ∈ rest.head?, isWordChar d = false) : wordRest (cs ++ rest) = cs := by
  rw [wordRest, List.takeWhile_append_of_pos hcs]
  cases rest with
  | nil => simp
  | cons d rest => simp [hrest d rfl]

/-- No character of a word begins anything to pass over. -/
theorem passed_of_isWordChar {c : Char} (h : isWordChar c = true) :
    isBlank c = false ∧ c ≠ '/' ∧ c ≠ '#' := by
  refine ⟨isBlank_of_isWordChar h, fun e => ?_, fun e => ?_⟩ <;> rw [e] at h <;> cases h

theorem first_of_isDigit {c : Char} (h : isDigit c = true) : (isLetter c || c = '_') = false := by
  have hne : c ≠ '_' := fun e => by rw [e] at h; cases h
  simp only [isDigit, Bool.and_eq_true, decide_eq_true_eq, Char.le_def, UInt32.le_iff_toNat_le] at h
  have hnine : c.val.toNat ≤ 57 := h.2
  simp only [isLetter, hne, decide_false, Bool.or_false, Bool.or_eq_false_iff,
    Bool.and_eq_false_iff, decide_eq_false_iff_not, Char.le_def, UInt32.le_iff_toNat_le]
  refine ⟨.inl (fun h => ?_), .inl (fun h => ?_)⟩
  · exact absurd (Nat.le_trans (show 97 ≤ _ from h) hnine) (by decide)
  · exact absurd (Nat.le_trans (show 65 ≤ _ from h) hnine) (by decide)

/-! ## Punctuators -/

namespace Punct

/-- No character of a punctuator is a blank, belongs to a word or begins a line marker. -/
theorem of_mem_chars (p : Punct) : ∀ c ∈ p.chars,
    isBlank c = false ∧ isWordChar c = false ∧ c ≠ '#' := by
  have h : (all.all fun p =>
      p.chars.all fun c => !isBlank c && !isWordChar c && c != '#') = true := by decide
  intro c hc
  simpa [and_assoc] using List.all_eq_true.1 (List.all_eq_true.1 h p (mem_all p)) c hc

theorem chars_inj {p q : Punct} (h : p.chars = q.chars) : p = q := by
  have htext : p.text = q.text := congrArg String.ofList h
  exact Option.some.inj (by rw [← ofText?_text p, htext, ofText?_text])

/-- A punctuator that begins where another one does is no longer than that one, or has one character
more. -/
theorem length_le_or_eq_concat {p q : Punct} {behind : List Char}
    (h : q.chars <+: p.chars ++ behind) :
    q.chars.length ≤ p.chars.length ∨ ∃ d ∈ behind.head?, q.chars = p.chars ++ [d] := by
  have hshort : ∀ q ∈ all, q.chars.length ≤ 2 := by decide
  rcases List.prefix_or_prefix_of_prefix h (List.prefix_append p.chars behind) with hqp | ⟨more, hq⟩
  · exact .inl hqp.length_le
  · rw [← hq, List.prefix_append_right_inj] at h
    obtain ⟨rest, rfl⟩ := h
    have htwo := hshort q (mem_all q)
    have hone := List.length_pos_iff.2 p.chars_ne_nil
    rw [← hq, List.length_append] at htwo
    match more, htwo with
    | [], _ => exact .inl (Nat.le_of_eq (by rw [← hq, List.append_nil]))
    | [d], _ => exact .inr ⟨d, rfl, hq.symm⟩
    | _ :: _ :: _, htwo => simp only [List.length_cons] at htwo; omega

/-- Where no longer punctuator begins, the punctuator is the longest one. -/
theorem longest?_append {p : Punct} {rest : List Char} (h : (TokenKind.punct p).Maximal rest) :
    longest? (p.chars ++ rest) = some p := by
  have hbegins := List.prefix_append p.chars rest
  cases hq : longest? (p.chars ++ rest) with
  | none =>
      have hnone := List.find?_eq_none.1 hq p (mem_all p)
      exact absurd (List.isPrefixOf_iff_prefix.2 hbegins) hnone
  | some q =>
      have hlength := length_le_of_longest? hq hbegins
      have hprefix : q.chars.isPrefixOf (p.chars ++ rest) = true :=
        List.find?_some (p := fun q : Punct => q.chars.isPrefixOf (p.chars ++ rest)) hq
      rw [List.isPrefixOf_iff_prefix] at hprefix
      have hpq := List.prefix_of_prefix_length_le hbegins hprefix hlength
      rw [chars_inj (hpq.eq_of_length_le (h q hprefix))]

end Punct

/-! ## Tokens at a character -/

/-- In front of `behind` a token of the kind is as long as it can be, and begins no comment. -/
structure TokenKind.EndsBefore (kind : TokenKind) (behind : List Char) : Prop where
  maximal : kind.Maximal behind
  slash : kind = .punct .slash → ∀ d ∈ behind.head?, d ≠ '/' ∧ d ≠ '*'

/-- Only the next character matters. -/
theorem TokenKind.EndsBefore.of_head {kind : TokenKind} {behind behind' : List Char}
    (h : kind.EndsBefore behind) (hhead : behind'.head? = behind.head?) :
    kind.EndsBefore behind' := by
  refine ⟨?_, fun hslash => by rw [hhead]; exact h.slash hslash⟩
  have hmaximal := h.maximal
  cases kind with
  | punct p =>
      intro q hq
      rcases Punct.length_le_or_eq_concat hq with hle | ⟨d, hd, hchars⟩
      · exact hle
      · refine hmaximal q ?_
        rw [hhead] at hd
        obtain ⟨rest, rfl⟩ := List.head?_eq_some_iff.1 hd
        exact ⟨rest, by rw [hchars]; simp⟩
  | endOfInput =>
      obtain rfl : behind = [] := hmaximal
      exact List.head?_eq_none_iff.1 hhead
  | keyword k | constant s | identifier =>
      intro d hd
      rw [hhead] at hd
      exact hmaximal d hd

/-- Characters that continue no token. -/
def separators : List Char := [' ', ';', '(', ')']

/-- A character that continues no token, and that makes no comment of a slash before it. -/
structure EndsTokens (d : Char) : Prop where
  word : isWordChar d = false
  slash : d ≠ '/'
  star : d ≠ '*'
  punct : ∀ q : Punct, d ∉ q.chars.tail

theorem endsTokens_of_mem_separators {d : Char} (h : d ∈ separators) : EndsTokens d := by
  have hall : (separators.all fun d => !isWordChar d && d != '/' && d != '*' &&
      Punct.all.all fun q => !q.chars.tail.contains d) = true := by decide
  have hd := List.all_eq_true.1 hall d h
  simp only [Bool.and_eq_true, Bool.not_eq_true', bne_iff_ne, List.all_eq_true] at hd
  obtain ⟨⟨⟨hword, hslash⟩, hstar⟩, hpuncts⟩ := hd
  exact ⟨hword, hslash, hstar, fun q => by simpa using hpuncts q (Punct.mem_all q)⟩

/-- A blank is part of no token, and it ends no comment. -/
theorem endsTokens_of_isBlank {d : Char} (h : isBlank d = true) : EndsTokens d where
  word := by
    cases hd : isWordChar d with
    | false => rfl
    | true =>
        rw [isBlank_of_isWordChar hd] at h
        cases h
  slash := by
    rintro rfl
    cases h
  star := by
    rintro rfl
    cases h
  punct q hq := by
    have hblank := (q.of_mem_chars d (List.mem_of_mem_tail hq)).1
    rw [h] at hblank
    cases hblank

/-- Every token ends in front of a character that continues none. -/
theorem TokenKind.endsBefore_of_head {kind : TokenKind} (hkind : kind ≠ .endOfInput)
    {behind : List Char} (h : ∀ d ∈ behind.head?, EndsTokens d) : kind.EndsBefore behind := by
  refine ⟨?_, fun _ d hd => ⟨(h d hd).slash, (h d hd).star⟩⟩
  cases kind with
  | punct p =>
      intro q hq
      rcases Punct.length_le_or_eq_concat hq with hle | ⟨d, hd, hchars⟩
      · exact hle
      · refine absurd ?_ ((h d hd).punct q)
        rw [hchars, List.tail_append_of_ne_nil p.chars_ne_nil]
        simp
  | endOfInput => exact absurd rfl hkind
  | keyword k | constant s | identifier => exact fun d hd => (h d hd).word

/-- No punctuator but the parenthesis itself begins with an opening parenthesis. -/
theorem TokenKind.endsBefore_leftParen (behind : List Char) :
    (punct .leftParen).EndsBefore behind := by
  have hshort : ∀ q ∈ Punct.all, q.chars.head? = some '(' → q.chars.length ≤ 1 := by decide
  refine ⟨fun q hq => hshort q (Punct.mem_all q) ?_, nofun⟩
  obtain ⟨c, cs, hchars⟩ := List.exists_cons_of_ne_nil q.chars_ne_nil
  rw [hchars] at hq ⊢
  exact congrArg some (List.cons_prefix_cons.1 hq).1

theorem at_word {fresh : Bool} {c : Char} {cs rest : List Char}
    (hc : (isLetter c || c = '_') = true) (hcs : ∀ d ∈ cs, isWordChar d = true)
    (hrest : ∀ d ∈ rest.head?, isWordChar d = false) :
    Piece.at fresh c (cs ++ rest) = .token (wordKind (c :: cs)) cs.length := by
  obtain ⟨hblank, hslash, hmarker⟩ := passed_of_isWordChar (isWordChar_of_first hc)
  rw [Piece.at, if_neg (by simp [hblank]), if_neg (by simp [hslash, hmarker]),
    if_neg (by simp [hslash]), if_pos hc, wordRest_append hcs hrest]

/-- Digits and a suffix are one constant when no word character follows them. -/
theorem at_digits {fresh : Bool} {c : Char} {cs rest : List Char} {s : Suffix}
    (hc : isDigit c = true) (hcs : ∀ d ∈ cs, isWordChar d = true)
    (hs : suffixOf? (c :: cs) = some s) (hrest : ∀ d ∈ rest.head?, isWordChar d = false) :
    Piece.at fresh c (cs ++ rest) = .token (.constant s) cs.length := by
  obtain ⟨hblank, hslash, hmarker⟩ := passed_of_isWordChar (c := c) (by simp [isWordChar, hc])
  rw [Piece.at, if_neg (by simp [hblank]), if_neg (by simp [hslash, hmarker]),
    if_neg (by simp [hslash]), if_neg (by simp [first_of_isDigit hc]), if_pos hc,
    wordRest_append hcs hrest, hs]

/-- A punctuator is read as a whole if no longer one begins there. -/
theorem at_punct {fresh : Bool} {p : Punct} {c : Char} {cs rest : List Char}
    (hchars : p.chars = c :: cs) (hrest : (TokenKind.punct p).EndsBefore rest) :
    Piece.at fresh c (cs ++ rest) = .token (.punct p) cs.length := by
  obtain ⟨hblank, hword, hmarker⟩ := p.of_mem_chars c (by simp [hchars])
  have hlongest := Punct.longest?_append hrest.maximal
  rw [hchars, List.cons_append] at hlongest
  have hcomment : ∀ d, d = '/' ∨ d = '*' → ¬ (c = '/' ∧ (cs ++ rest).head? = some d) := by
    rintro d hd ⟨rfl, hhead⟩
    have hslash : ∀ p ∈ Punct.all, p.chars.head? = some '/' → p = .slash := by decide
    obtain rfl := hslash p (Punct.mem_all p) (by rw [hchars]; rfl)
    obtain rfl : cs = [] := (List.cons.inj hchars).2.symm
    obtain ⟨hslash, hstar⟩ := hrest.slash rfl d hhead
    exact hd.elim hslash hstar
  simp only [isWordChar, Bool.or_eq_false_iff] at hword
  rw [Piece.at, if_neg (by simp [hblank]),
    if_neg (by simpa [hmarker] using hcomment '/' (.inl rfl)),
    if_neg (by simpa using hcomment '*' (.inr rfl)), if_neg (by simp [hword.1.1, hword.2]),
    if_neg (by simp [hword.1.2]), hlongest]
  show Piece.token (.punct p) (p.chars.length - 1) = .token (.punct p) cs.length
  rw [hchars, List.length_cons, Nat.add_sub_cancel]

theorem suffixOf?_append {digits letters : List Char} {s : Suffix}
    (hdigits : ∀ d ∈ digits, isDigit d = true) (h : letters ∈ s.spellings) :
    suffixOf? (digits ++ letters) = some s := by
  have hletters : ∀ letters ∈ s.spellings,
      Suffix.ofLetters? ((letters.dropWhile isDigit).map lowerLetter) = some s := by
    cases s <;> decide
  rw [suffixOf?, List.dropWhile_append_of_pos hdigits, hletters letters h]

theorem isWordChar_of_mem_spelling {letters : List Char} {s : Suffix} (h : letters ∈ s.spellings) :
    ∀ c ∈ letters, isWordChar c = true := by
  have hletters : (s.spellings.all fun letters => letters.all isWordChar) = true := by
    cases s <;> decide
  exact List.all_eq_true.1 (List.all_eq_true.1 hletters letters h)

/-- A spelling of a kind that ends in front of the rest is a token of the kind. -/
theorem Piece.at_of_spells {kind : TokenKind} {fresh : Bool} {c : Char} {cs rest : List Char}
    (hkind : kind ≠ .endOfInput) (h : kind.Spells (String.ofList (c :: cs)))
    (hrest : kind.EndsBefore rest) : Piece.at fresh c (cs ++ rest) = .token kind cs.length := by
  have hmaximal := hrest.maximal
  cases kind with
  | keyword k =>
      have htext : String.ofList (c :: cs) = k.text := h
      obtain ⟨d, ds, hword, hc, hcs⟩ := k.word
      rw [← htext, String.toList_ofList] at hword
      cases hword
      rw [at_word hc hcs hmaximal, wordKind, htext, Keyword.ofText?_text]
  | punct p => exact at_punct (String.ofList_injective h).symm hrest
  | constant s =>
      obtain ⟨digits, letters, htext, hne, hdigits, hletters⟩ := h
      rw [String.toList_ofList] at htext
      obtain ⟨d, digits, rfl⟩ := List.exists_cons_of_ne_nil hne
      obtain ⟨rfl, rfl⟩ := List.cons.inj htext
      refine at_digits (hdigits c List.mem_cons_self) (fun d hd => ?_)
        (suffixOf?_append hdigits hletters) hmaximal
      rcases List.mem_append.1 hd with hd | hd
      · simp [isWordChar, hdigits d (List.mem_cons_of_mem _ hd)]
      · exact isWordChar_of_mem_spelling hletters d hd
  | identifier =>
      obtain ⟨⟨d, ds, hword, hc, hcs⟩, hfree⟩ := h
      rw [String.toList_ofList] at hword
      cases hword
      rw [at_word hc hcs hmaximal, wordKind, hfree]
  | endOfInput => exact absurd rfl hkind

/-- What a token at a character is: a spelling of its kind that ends where it does. -/
theorem Piece.at_eq_token_iff {kind : TokenKind} {fresh : Bool} {c : Char} {cs rest : List Char} :
    Piece.at fresh c (cs ++ rest) = .token kind cs.length ↔
      kind ≠ .endOfInput ∧ kind.Spells (String.ofList (c :: cs)) ∧ kind.EndsBefore rest := by
  refine ⟨fun h => ?_, fun h => at_of_spells h.1 h.2.1 h.2.2⟩
  obtain ⟨hkind, cs', rest', hsplit, hlength, hspells, hmaximal⟩ := of_at_eq_token h
  obtain ⟨rfl, rfl⟩ := List.append_inj hsplit hlength
  refine ⟨hkind, hspells, hmaximal, ?_⟩
  rintro rfl d hd
  obtain ⟨rfl, rfl⟩ := List.cons.inj (String.ofList_injective hspells)
  obtain ⟨rest, rfl⟩ := List.head?_eq_some_iff.1 (Option.mem_def.1 hd)
  -- a comment would begin here
  refine ⟨?_, ?_⟩ <;> rintro rfl
  · rw [Piece.at, if_neg (by decide), if_pos (by simp)] at h
    cases h
  · rw [Piece.at, if_neg (by decide), if_neg (by simp), if_pos (by simp)] at h
    split at h <;> cases h

theorem Lexeme.Spelled.ne_endOfInput {l : Lexeme} (h : l.Spelled) : l.kind ≠ .endOfInput := by
  cases h <;> nofun

/-- A spelled lexeme has the text that its kind allows. -/
theorem Lexeme.Spelled.spells {l : Lexeme} (h : l.Spelled) : l.kind.Spells l.text := by
  cases h with
  | keyword k => rfl
  | punct p => rfl
  | identifier h => exact h
  | constant n s =>
      refine ⟨Nat.toDigits 10 n, s.letters, String.toList_ofList, Nat.toDigits_ne_nil,
        fun c hc => isDigit_of_mem_toDigits hc, ?_⟩
      cases s <;> decide

end IntegerC
