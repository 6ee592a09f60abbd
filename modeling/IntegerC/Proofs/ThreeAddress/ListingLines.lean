import IntegerC.Proofs.Cutting
import IntegerC.Proofs.Grammar.Lexemes
import IntegerC.Proofs.Machine.Marks
import IntegerC.Proofs.ThreeAddress.CodeConstants
import IntegerC.ThreeAddress.Listing

set_option autoImplicit false

/-! # Lines of listings

A line of a listing names neither the form of its instruction nor what its words stand for. It can
be read back all the same if names begin with a letter or an underscore, as no number does, and if
no constant of an instruction is negative: the copy of a negative constant would look like a
negation.

Lines are compared by what they are cut into. A blank with a name behind it is a `word`, any other
character between names is a `mark`.
-/

namespace IntegerC

open Text (Chunk NameChars cut isNameChar)

/-! ## Constants -/

theorem IntType.letters_injective : Function.Injective IntType.letters := by
  intro σ τ h
  cases σ <;> cases τ <;> first | rfl | exact absurd h (by decide)

/-- A constant is given back by its value and the letters of its type. -/
theorem Constant.text_inj {c d : Constant} (h : c.text = d.text) : c = d := by
  have hvalue : ∀ e : Constant, e.text.toList.takeWhile isNumeral = (toString e.value).toList := by
    intro e
    have hletters : e.type.letters.toList.takeWhile isNumeral = [] := by
      cases e.type <;> decide
    rw [text, String.toList_append,
      List.takeWhile_append_of_pos fun _ => isNumeral_of_mem_toString, hletters, List.append_nil]
  have hvalues : toString c.value = toString d.value := by
    rw [← String.toList_inj, ← hvalue c, h, hvalue d]
  have htypes : c.type.letters = d.type.letters := by
    rw [text, text, hvalues] at h
    exact (String.append_right_inj _).1 h
  cases c
  cases d
  congr
  · exact IntType.letters_injective htypes
  · exact toString_int_inj hvalues

theorem Constant.unbroken_text (c : Constant) : Text.Unbroken c.text := by
  have hchars : ∀ d ∈ c.text.toList, d ≠ '\n' ∧ d ≠ '\r' := by
    rw [text, String.toList_append]
    refine List.forall_mem_append.2 ⟨fun d hd => ?_, ?_⟩
    · have hnumeral := isNumeral_of_mem_toString hd
      refine ⟨?_, ?_⟩ <;>
      · rintro rfl
        cases hnumeral
    · cases c.type <;> simp [IntType.letters]
  exact ⟨fun h => (hchars _ h).1 rfl, fun h => (hchars _ h).2 rfl⟩

/-- A constant that is not negative begins with a digit. -/
theorem Constant.text_begins {c : Constant} (h : 0 ≤ c.value) :
    (∃ d cs, c.text.toList = d :: cs ∧ Text.isDigit d = true) ∧ NameChars c.text.toList := by
  obtain ⟨n, hn⟩ := Int.eq_ofNat_of_zero_le h
  have htext : c.text.toList = Nat.toDigits 10 n ++ c.type.letters.toList := by
    rw [text, hn, String.toList_append, ← Nat.toList_repr]
    rfl
  obtain ⟨d, ds, hd⟩ := List.exists_cons_of_ne_nil (Nat.toDigits_ne_nil (n := n) (b := 10))
  refine ⟨⟨d, ds ++ c.type.letters.toList, by rw [htext, hd]; rfl, ?_⟩, ?_⟩
  · exact isDigit_of_mem_toDigits (n := n) (hd ▸ List.mem_cons_self)
  · have hletters : NameChars c.type.letters.toList := by cases c.type <;> decide
    rw [htext]
    refine List.forall_mem_append.2 ⟨fun e he => ?_, hletters⟩
    simp [isNameChar, isWordChar_of_mem_toDigits he]

namespace ThreeAddress

/-! ## Values -/

/-- A name that begins with a letter or an underscore. -/
def IsName (x : String) : Prop :=
  ∃ c cs, x.toList = c :: cs ∧ (Text.isLetter c || c = '_') = true ∧ NameChars cs

theorem IsName.toList_ne_nil {x : String} (h : IsName x) : x.toList ≠ [] := by
  obtain ⟨c, cs, hx, -⟩ := h
  simp [hx]

theorem IsName.nameChars {x : String} (h : IsName x) : NameChars x.toList := by
  obtain ⟨c, cs, hx, hc, hcs⟩ := h
  rw [hx]
  exact List.forall_mem_cons.2 ⟨by simp [isNameChar, isWordChar_of_first hc], hcs⟩

namespace Value

/-- A variable with a name that no number has, or a constant that is not negative. -/
def Legible : Value → Prop
  | constant c => 0 ≤ c.value
  | var x => IsName x

variable {v w : Value}

theorem Legible.nameChars (h : v.Legible) : NameChars v.text.toList := by
  cases v with
  | constant c => exact (Constant.text_begins h).2
  | var x => exact IsName.nameChars h

theorem Legible.text_ne_nil (h : v.Legible) : v.text.toList ≠ [] := by
  cases v with
  | constant c =>
      obtain ⟨⟨d, cs, hc, -⟩, -⟩ := Constant.text_begins h
      simp [text, hc]
  | var x =>
      obtain ⟨c, cs, hx, -⟩ := h
      simp [text, hx]

/-- No name is the text of a constant. -/
theorem Legible.text_constant_ne {c : Constant} {x : String} (hc : (constant c).Legible)
    (hx : (var x).Legible) : (constant c).text ≠ (var x).text := by
  intro h
  obtain ⟨⟨d, cs, hd, hdigit⟩, -⟩ := Constant.text_begins hc
  obtain ⟨e, es, he, hletter, -⟩ := hx
  have hde : d = e := by
    have hlist : c.text.toList = x.toList := congrArg String.toList h
    rw [hd, he] at hlist
    exact (List.cons.inj hlist).1
  rw [← hde, first_of_isDigit hdigit] at hletter
  cases hletter

/-- Values of legible names are told apart by their texts. -/
theorem Legible.text_inj (hv : v.Legible) (hw : w.Legible) (h : v.text = w.text) : v = w := by
  cases v with
  | constant c =>
      cases w with
      | constant d => exact congrArg constant (Constant.text_inj h)
      | var y => exact absurd h (hv.text_constant_ne hw)
  | var x =>
      cases w with
      | constant d => exact absurd h.symm (hw.text_constant_ne hv)
      | var y => exact congrArg var h

end Value

/-! ## Instructions -/

/-- An instruction whose line tells what it is. -/
structure Instr.Legible (i : Instr) : Prop where
  values : ∀ v ∈ i.values, v.Legible
  marks : ∀ m ∈ i.mark?, NameChars m.name.toList
  operator : ∀ name left right dst, i ≠ .binary (.other name) left right dst

namespace Instr.Legible

variable {i : Instr} {v dst : Value}

theorem source (h : i.Legible) (hv : v ∈ i.sources) : v.Legible :=
  h.values v (List.mem_append_left _ hv)

theorem destination (h : i.Legible) (hv : i.destination? = some v) : v.Legible :=
  h.values v (List.mem_append_right _ (by simp [hv]))

theorem args {f : String} {args : List Value} (h : (call f args dst).Legible) :
    ∀ v ∈ args, v.Legible :=
  fun _ hv => h.source hv

theorem known {op : Operator} {left right : Value} (h : (binary op left right dst).Legible) :
    ∀ name, op ≠ .other name := by
  rintro name rfl
  exact h.operator _ _ _ _ rfl

end Instr.Legible

/-- A blank with a name behind it. -/
@[simp] def word (name : String) : Chunk := (' ', name.toList)

/-- A character with no name behind it. -/
@[simp] def mark (c : Char) : Chunk := (c, [])

/-- What a result is cut into, with the equality sign behind it. -/
@[simp] def assigned (dst : Value) : List Chunk :=
  [mark ' ', mark ' ', mark ' ', word dst.text, mark ' ', mark '=']

def unarySign : UnaryOp → Char
  | .negate => '-'
  | .complement => '~'
  | .not => '!'

/-- What is cut from names with commas between them, and from the parenthesis that closes the
list. -/
def listed : List (List Char) → List Char × List Chunk
  | [] => ([], [mark ')'])
  | x :: xs => (x, (xs.flatMap fun y => [mark ',', (' ', y)]) ++ [mark ')'])

/-- What the line of an instruction is cut into. -/
def Instr.chunks : Instr → List Chunk
  | .ret v => [mark ' ', mark ' ', mark ' ', word "return", word v.text]
  | .signExtend src dst => assigned dst ++ [word "sign_extend", word src.text]
  | .zeroExtend src dst => assigned dst ++ [word "zero_extend", word src.text]
  | .truncate src dst => assigned dst ++ [word "truncate", word src.text]
  | .copy src dst => assigned dst ++ [word src.text]
  | .unary op src dst => assigned dst ++ [mark ' ', (unarySign op, src.text.toList)]
  | .binary op left right dst =>
      assigned dst ++ word left.text :: mark ' ' :: (op.text.toList.map mark ++ [word right.text])
  | .jump target => [mark ' ', mark ' ', mark ' ', word "jump", word target]
  | .jumpIfZero c target =>
      [mark ' ', mark ' ', mark ' ', word "jump_if_zero", word c.text, mark ',', word target]
  | .jumpIfNotZero c target =>
      [mark ' ', mark ' ', mark ' ', word "jump_if_not_zero", word c.text, mark ',', word target]
  | .label name => [mark ' ', word name, mark ':']
  | .call name args dst =>
      let list := listed ((args.map Value.text).map String.toList)
      assigned dst ++ word name :: ('(', list.1) :: list.2

theorem mark_of_mem_listed {xs : List (List Char)} {p : Chunk} (h : p ∈ (listed xs).2) :
    p.1 ∈ [',', ' ', ')'] := by
  cases xs with
  | nil =>
      obtain rfl : p = mark ')' := by simpa [listed] using h
      decide
  | cons x xs =>
      rw [listed, List.mem_append, List.mem_flatMap] at h
      rcases h with ⟨y, -, h⟩ | h
      · simp only [List.mem_cons, List.not_mem_nil, or_false] at h
        rcases h with rfl | rfl <;> simp
      · obtain rfl : p = mark ')' := by simpa using h
        decide

/-- The chunks of a list in parentheses are its items. -/
theorem cut_listed {xs : List (List Char)} (h : ∀ x ∈ xs, NameChars x) {rest : List Char}
    (hr : (cut rest).1 = []) : cut ([',', ' '].intercalate xs ++ ')' :: rest) =
      ((listed xs).1, (listed xs).2 ++ (cut rest).2) := by
  cases xs with
  | nil => simp (disch := decide) [listed, hr]
  | cons x xs =>
      induction xs generalizing x with
      | nil =>
          have hx := h x List.mem_cons_self
          simp (disch := decide) [listed, hx.cut_append, hr]
      | cons y ys ih =>
          obtain ⟨hx, hys⟩ := List.forall_mem_cons.1 h
          rw [List.intercalate_cons_cons, List.append_assoc, List.append_assoc, hx.cut_append]
          simp (disch := decide) [listed, ih y hys]

/-- The text of an operator is made of marks, so it cuts no name. -/
theorem Operator.marks_text {op : Operator} (h : ∀ name, op ≠ .other name) :
    ∀ c ∈ op.text.toList, isNameChar c = false ∧ c ≠ '\n' ∧ c ≠ '\r' := by
  have hall : op.text.toList.all (fun c => !isNameChar c && c != '\n' && c != '\r') = true := by
    cases op with
    | arith op | shift op | compare op => cases op <;> decide
    | other name => exact absurd rfl (h name)
  intro c hc
  simpa [and_assoc] using List.all_eq_true.1 hall c hc

theorem cut_operator {op : Operator} (h : ∀ name, op ≠ .other name) {rest : List Char} :
    cut (op.text.toList ++ ' ' :: rest) =
      ([], op.text.toList.map mark ++ (' ', (cut rest).1) :: (cut rest).2) := by
  rw [Text.cut_marks_append fun c hc => (Operator.marks_text h c hc).1]
  · simp (disch := decide)
  · simp (disch := decide)

/-- What a line is cut into, in the order of the line. -/
theorem Instr.cut_line {i : Instr} (h : i.Legible) : cut i.line.toList = ([], i.chunks) := by
  -- the text of a value is not cut, and what stands behind it is cut as it is alone
  have hsource : ∀ v ∈ i.sources, cut v.text.toList = (v.text.toList, []) :=
    fun v hv => (h.source hv).nameChars.cut_eq
  have hdst : ∀ v, i.destination? = some v → ∀ rest,
      cut (v.text.toList ++ rest) = (v.text.toList ++ (cut rest).1, (cut rest).2) :=
    fun v hv => (h.destination hv).nameChars.cut_append
  cases i with
  | ret v =>
      have hv := hsource v (.head _)
      show cut ("    return " ++ v.text).toList = _
      simp (disch := decide) [chunks, hv]
  | signExtend src dst =>
      have hs := hsource src (.head _)
      have hd := hdst dst rfl
      show cut ("    " ++ dst.text ++ " = sign_extend " ++ src.text).toList = _
      simp (disch := decide) [chunks, hs, hd]
  | zeroExtend src dst =>
      have hs := hsource src (.head _)
      have hd := hdst dst rfl
      show cut ("    " ++ dst.text ++ " = zero_extend " ++ src.text).toList = _
      simp (disch := decide) [chunks, hs, hd]
  | truncate src dst =>
      have hs := hsource src (.head _)
      have hd := hdst dst rfl
      show cut ("    " ++ dst.text ++ " = truncate " ++ src.text).toList = _
      simp (disch := decide) [chunks, hs, hd]
  | copy src dst =>
      have hs := hsource src (.head _)
      have hd := hdst dst rfl
      show cut ("    " ++ dst.text ++ " = " ++ src.text).toList = _
      simp (disch := decide) [chunks, hs, hd]
  | unary op src dst =>
      have hs := hsource src (.head _)
      have hd := hdst dst rfl
      show cut ("    " ++ dst.text ++ " = " ++ op.text ++ src.text).toList = _
      cases op <;> simp (disch := decide) [chunks, hs, hd, UnaryOp.text, unarySign]
  | binary op left right dst =>
      have hl := (h.source (.head _)).nameChars.cut_append
      have hr := hsource right (.tail _ (.head _))
      have hd := hdst dst rfl
      show cut ("    " ++ dst.text ++ " = " ++ left.text ++ " " ++ op.text ++ " " ++
        right.text).toList = _
      simp (disch := decide) [chunks, hl, hr, hd, cut_operator h.known]
  | jump target =>
      have ht : NameChars target.toList := h.marks _ rfl
      show cut ("    jump " ++ target).toList = _
      simp (disch := decide) [chunks, ht.cut_eq]
  | jumpIfZero c target =>
      have hc := (h.source (.head _)).nameChars.cut_append
      have ht : NameChars target.toList := h.marks _ rfl
      show cut ("    jump_if_zero " ++ c.text ++ ", " ++ target).toList = _
      simp (disch := decide) [chunks, hc, ht.cut_eq]
  | jumpIfNotZero c target =>
      have hc := (h.source (.head _)).nameChars.cut_append
      have ht : NameChars target.toList := h.marks _ rfl
      show cut ("    jump_if_not_zero " ++ c.text ++ ", " ++ target).toList = _
      simp (disch := decide) [chunks, hc, ht.cut_eq]
  | label name =>
      have hn : NameChars name.toList := h.marks _ rfl
      show cut ("  " ++ name ++ ":").toList = _
      simp (disch := decide) [chunks, hn.cut_append]
  | call name args dst =>
      have hn : NameChars name.toList := h.marks _ rfl
      have hd := hdst dst rfl
      have hargs : ∀ x ∈ args.map (String.toList ∘ Value.text), NameChars x := by
        rw [List.forall_mem_map]
        exact fun v hv => (h.args v hv).nameChars
      show cut ("    " ++ dst.text ++ " = " ++ name ++ "(" ++
        ", ".intercalate (args.map Value.text) ++ ")").toList = _
      simp (disch := decide) [chunks, hn.cut_append, hd, cut_listed hargs]

/-! ## Reading lines back -/

theorem unarySign_injective : Function.Injective unarySign := by
  intro op op' h
  cases op <;> cases op' <;> first | rfl | exact absurd h (by decide)

/-- Operators are told apart by their texts. -/
theorem Operator.text_inj {op op' : Operator} (h : ∀ name, op ≠ .other name)
    (h' : ∀ name, op' ≠ .other name) (htext : op.text = op'.text) : op = op' := by
  cases op with
  | other name => exact absurd rfl (h name)
  | arith op | shift op | compare op =>
      cases op' with
      | other name => exact absurd rfl (h' name)
      | arith op' | shift op' | compare op' =>
          cases op <;> cases op' <;> first | rfl | exact absurd htext (by decide)

/-- A list of names, none of which is empty, is given back by what it is cut into. -/
theorem listed_inj {xs ys : List (List Char)} (hx : ∀ x ∈ xs, x ≠ []) (hy : ∀ y ∈ ys, y ≠ [])
    (h : listed xs = listed ys) : xs = ys := by
  have hbehind : ∀ xs ys : List (List Char),
      (xs.flatMap fun y => [mark ',', (' ', y)]) = (ys.flatMap fun y => [mark ',', (' ', y)]) →
        xs = ys := by
    intro xs
    induction xs with
    | nil =>
        rintro (_ | ⟨y, ys⟩) e
        · rfl
        · simp at e
    | cons x xs ih =>
        rintro (_ | ⟨y, ys⟩) e
        · simp at e
        · obtain ⟨hxy, e⟩ : x = y ∧ (xs.flatMap fun y => [mark ',', (' ', y)]) =
              ys.flatMap fun y => [mark ',', (' ', y)] := by simpa using e
          rw [hxy, ih ys e]
  cases xs with
  | nil =>
      cases ys with
      | nil => rfl
      | cons y ys => exact absurd (congrArg Prod.fst h).symm (hy y List.mem_cons_self)
  | cons x xs =>
      cases ys with
      | nil => exact absurd (congrArg Prod.fst h) (hx x List.mem_cons_self)
      | cons y ys =>
          obtain ⟨hxy, hlists⟩ := Prod.ext_iff.1 h
          rw [show x = y from hxy, hbehind xs ys (List.append_cancel_right hlists)]

theorem Value.Legible.toList_inj {v w : Value} (hv : v.Legible) (hw : w.Legible)
    (h : v.text.toList = w.text.toList) : v = w :=
  hv.text_inj hw (String.toList_inj.1 h)

/-- The texts of a source and of a destination give back both. -/
theorem Instr.Legible.operands_inj {i j : Instr} (hi : i.Legible) (hj : j.Legible)
    {src src' dst dst' : Value} (hs : i.sources = [src]) (hs' : j.sources = [src'])
    (hd : i.destination? = some dst) (hd' : j.destination? = some dst')
    (h : dst.text.toList = dst'.text.toList ∧ src.text.toList = src'.text.toList) :
    src = src' ∧ dst = dst' := by
  have hsrc : src.Legible := hi.source (hs ▸ .head _)
  have hsrc' : src'.Legible := hj.source (hs' ▸ .head _)
  exact ⟨hsrc.toList_inj hsrc' h.2, (hi.destination hd).toList_inj (hj.destination hd') h.1⟩

/-- An instruction is given back by what its line is cut into. Lines of different forms differ in
the words and marks of the form, and a name stands where a name is expected. -/
theorem Instr.eq_of_chunks_eq {i j : Instr} (hi : i.Legible) (hj : j.Legible)
    (h : i.chunks = j.chunks) : i = j := by
  cases i with
  | ret v =>
      cases j with
      | ret w =>
          have hv : v.text.toList = w.text.toList := by simpa [chunks] using h
          rw [(hi.source (.head _)).toList_inj (hj.source (.head _)) hv]
      | _ => simp [chunks] at h
  | signExtend src dst =>
      cases j with
      | signExtend src' dst' =>
          obtain ⟨rfl, rfl⟩ := hi.operands_inj hj rfl rfl rfl rfl (by simpa [chunks] using h)
          rfl
      | _ => simp [chunks] at h
  | zeroExtend src dst =>
      cases j with
      | zeroExtend src' dst' =>
          obtain ⟨rfl, rfl⟩ := hi.operands_inj hj rfl rfl rfl rfl (by simpa [chunks] using h)
          rfl
      | _ => simp [chunks] at h
  | truncate src dst =>
      cases j with
      | truncate src' dst' =>
          obtain ⟨rfl, rfl⟩ := hi.operands_inj hj rfl rfl rfl rfl (by simpa [chunks] using h)
          rfl
      | _ => simp [chunks] at h
  | copy src dst =>
      cases j with
      | copy src' dst' =>
          obtain ⟨rfl, rfl⟩ := hi.operands_inj hj rfl rfl rfl rfl (by simpa [chunks] using h)
          rfl
      | _ => simp [chunks] at h
  | unary op src dst =>
      cases j with
      | unary op' src' dst' =>
          obtain ⟨hd, ho, hs⟩ : dst.text.toList = dst'.text.toList ∧
            unarySign op = unarySign op' ∧ src.text.toList = src'.text.toList := by
              simpa [chunks] using h
          obtain ⟨rfl, rfl⟩ := hi.operands_inj hj rfl rfl rfl rfl ⟨hd, hs⟩
          rw [unarySign_injective ho]
      | call f args d => cases op <;> simp [chunks, unarySign] at h
      | _ => simp [chunks] at h
  | binary op left right dst =>
      cases j with
      | binary op' left' right' dst' =>
          obtain ⟨hd, hl, hmarks⟩ : dst.text.toList = dst'.text.toList ∧
            left.text.toList = left'.text.toList ∧ op.text.toList.map mark ++ [word right.text] =
              op'.text.toList.map mark ++ [word right'.text] := by simpa [chunks] using h
          -- the operator is a list of marks, and the right operand the word behind it
          obtain ⟨ho, hr⟩ := List.append_inj' hmarks rfl
          have ho : op.text = op'.text := by
            have hmark : Function.Injective mark := fun c d e => congrArg Prod.fst e
            exact String.toList_inj.1 (List.map_injective_iff.2 hmark ho)
          have hr : right.text.toList = right'.text.toList := by simpa using hr
          rw [Operator.text_inj hi.known hj.known ho,
            (hi.source (.head _)).toList_inj (hj.source (.head _)) hl,
            (hi.source (.tail _ (.head _))).toList_inj (hj.source (.tail _ (.head _))) hr,
            (hi.destination rfl).toList_inj (hj.destination rfl) hd]
      | _ => simp [chunks] at h
  | jump target =>
      cases j with
      | jump target' => simpa [chunks, String.toList_inj] using h
      | _ => simp [chunks] at h
  | jumpIfZero c target =>
      cases j with
      | jumpIfZero c' target' =>
          obtain ⟨hc, ht⟩ : c.text.toList = c'.text.toList ∧ target = target' := by
            simpa [chunks, String.toList_inj] using h
          rw [(hi.source (.head _)).toList_inj (hj.source (.head _)) hc, ht]
      | _ => simp [chunks] at h
  | jumpIfNotZero c target =>
      cases j with
      | jumpIfNotZero c' target' =>
          obtain ⟨hc, ht⟩ : c.text.toList = c'.text.toList ∧ target = target' := by
            simpa [chunks, String.toList_inj] using h
          rw [(hi.source (.head _)).toList_inj (hj.source (.head _)) hc, ht]
      | _ => simp [chunks] at h
  | label name =>
      cases j with
      | label name' => simpa [chunks, String.toList_inj] using h
      | _ => simp [chunks] at h
  | call name args dst =>
      cases j with
      | call name' args' dst' =>
          obtain ⟨hd, hn, hfirst, hrest⟩ : dst.text.toList = dst'.text.toList ∧ name = name' ∧
              (listed (args.map (String.toList ∘ Value.text))).1 =
                (listed (args'.map (String.toList ∘ Value.text))).1 ∧
              (listed (args.map (String.toList ∘ Value.text))).2 =
                (listed (args'.map (String.toList ∘ Value.text))).2 := by
            simpa [chunks, String.toList_inj] using h
          have hargs := listed_inj (fun x hx => ?_) (fun y hy => ?_) (Prod.ext hfirst hrest)
          · rw [hn, eq_of_map_eq (fun v hv w hw => (hi.args v hv).toList_inj (hj.args w hw)) hargs,
              (hi.destination rfl).toList_inj (hj.destination rfl) hd]
          · obtain ⟨v, hv, rfl⟩ := List.mem_map.1 hx
            exact (hi.args v hv).text_ne_nil
          · obtain ⟨v, hv, rfl⟩ := List.mem_map.1 hy
            exact (hj.args v hv).text_ne_nil
      | unary op s d => cases op <;> simp [chunks, unarySign] at h
      | _ => simp [chunks] at h

theorem Instr.Legible.line_inj {i j : Instr} (hi : i.Legible) (hj : j.Legible)
    (h : i.line = j.line) : i = j := by
  refine Instr.eq_of_chunks_eq hi hj ?_
  have hcut := Instr.cut_line hi
  rw [h, Instr.cut_line hj] at hcut
  exact (congrArg Prod.snd hcut).symm

/-- Without legible constants two instructions can have the same line. -/
example : (Instr.copy (.constant ⟨.int, -1⟩) (.var "x")).line =
    (Instr.unary .negate (.constant ⟨.int, 1⟩) (.var "x")).line := by decide

theorem Instr.Legible.unbroken {i : Instr} (h : i.Legible) : Text.Unbroken i.line := by
  rw [Text.unbroken_iff_cut, Instr.cut_line h]
  cases i with
  | unary op src dst => cases op <;> simp [chunks, unarySign]
  | binary op left right dst =>
      have hmarks := Operator.marks_text h.known
      have hn : '\n' ∉ op.text.toList := fun hc => (hmarks _ hc).2.1 rfl
      have hr : '\r' ∉ op.text.toList := fun hc => (hmarks _ hc).2.2 rfl
      simpa [chunks] using ⟨hn, hr⟩
  | call name args dst =>
      have hlist : ∀ c ∉ [',', ' ', ')'], ∀ w,
          (c, w) ∉ (listed (args.map (String.toList ∘ Value.text))).2 :=
        fun c hc w hmem => hc (mark_of_mem_listed hmem)
      simpa [chunks] using ⟨hlist '\n' (by decide), hlist '\r' (by decide)⟩
  | _ => simp [chunks]

end ThreeAddress

end IntegerC
