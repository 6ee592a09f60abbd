import IntegerC.Proofs.Joining

set_option autoImplicit false

/-! # Lines of names and marks

A text can be cut in front of each character that no name has. It can be put together again from
what it is cut into, so two texts are compared by comparing that.
-/

namespace IntegerC.Text

/-- The characters of names: those of words, and the dot of made names. -/
def isNameChar (c : Char) : Bool := isWordChar c || c = '.'

def NameChars (cs : List Char) : Prop := ∀ c ∈ cs, isNameChar c = true

instance (cs : List Char) : Decidable (NameChars cs) := List.decidableBAll _ cs

/-- A character that no name has, with the name behind it, which may be empty. -/
abbrev Chunk := Char × List Char

/-- What a text is cut into after a character was put in front of it. -/
def pushFront (c : Char) (p : List Char × List Chunk) : List Char × List Chunk :=
  if isNameChar c then (c :: p.1, p.2) else ([], (c, p.1) :: p.2)

/-- The name at the beginning of a text, which may be empty, and the chunks behind it. -/
def cut : List Char → List Char × List Chunk
  | [] => ([], [])
  | c :: cs => pushFront c (cut cs)

@[simp] theorem cut_nil : cut [] = ([], []) := rfl

@[simp] theorem cut_cons (c : Char) (cs : List Char) : cut (c :: cs) = pushFront c (cut cs) := rfl

/-- What was cut can be put together again. -/
theorem cut_spells (cs : List Char) :
    (cut cs).1 ++ (cut cs).2.flatMap (fun p => p.1 :: p.2) = cs := by
  induction cs with
  | nil => rfl
  | cons c cs ih =>
      rw [cut_cons, pushFront]
      split <;> simp [ih]

theorem cut_injective {cs ds : List Char} (h : cut cs = cut ds) : cs = ds := by
  rw [← cut_spells cs, h, cut_spells ds]

variable {c : Char} {cs : List Char}

@[simp] theorem pushFront_name (h : isNameChar c = true) (p : List Char × List Chunk) :
    pushFront c p = (c :: p.1, p.2) := if_pos h

@[simp] theorem pushFront_mark (h : isNameChar c = false) (p : List Char × List Chunk) :
    pushFront c p = ([], (c, p.1) :: p.2) := if_neg (by simp [h])

/-- Characters of a name in front of a text lengthen the name that the text begins with. -/
theorem NameChars.cut_append (h : NameChars cs) (rest : List Char) :
    cut (cs ++ rest) = (cs ++ (cut rest).1, (cut rest).2) := by
  induction cs with
  | nil => rfl
  | cons c cs ih =>
      obtain ⟨hc, hcs⟩ := List.forall_mem_cons.1 h
      rw [List.cons_append, cut_cons, ih hcs, pushFront_name hc]
      rfl

theorem NameChars.cut_eq (h : NameChars cs) : cut cs = (cs, []) := by
  simpa using h.cut_append []

/-- Characters that no name has are cut one by one, if no name follows. -/
theorem cut_marks_append (h : ∀ c ∈ cs, isNameChar c = false) {rest : List Char}
    (hr : (cut rest).1 = []) : cut (cs ++ rest) = ([], cs.map (·, []) ++ (cut rest).2) := by
  induction cs with
  | nil => exact Prod.ext hr rfl
  | cons c cs ih =>
      obtain ⟨hc, hcs⟩ := List.forall_mem_cons.1 h
      rw [List.cons_append, cut_cons, ih hcs, pushFront_mark hc]
      rfl

/-- A character that no name has stands in a text if a chunk of it begins with the character. -/
theorem mem_iff_mem_cut (h : isNameChar c = false) : c ∈ cs ↔ c ∈ (cut cs).2.map Prod.fst := by
  induction cs with
  | nil => simp
  | cons d cs ih =>
      by_cases hd : isNameChar d = true
      · have hne : c ≠ d := by
          rintro rfl
          rw [h] at hd
          cases hd
        simp [hd, hne, ih]
      · have hd : isNameChar d = false := by simpa using hd
        simp [hd, ih]

theorem unbroken_iff_cut {line : String} : Unbroken line ↔
    '\n' ∉ (cut line.toList).2.map Prod.fst ∧ '\r' ∉ (cut line.toList).2.map Prod.fst := by
  rw [← mem_iff_mem_cut (by decide), ← mem_iff_mem_cut (by decide), Unbroken]

end IntegerC.Text

namespace IntegerC

theorem Named.nameChars {x : String} (h : Named x) : Text.NameChars x.toList := by
  intro c hc
  simpa [Text.isNameChar] using h.mem_toList hc

end IntegerC
