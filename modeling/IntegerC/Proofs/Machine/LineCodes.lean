import Mathlib.Data.List.Nodup
import IntegerC.Proofs.Cutting
import IntegerC.Proofs.Linking

set_option autoImplicit false

/-! # Lines of machine code read back

A line of code gives back its mnemonic and the texts of its operands, as neither has a tab or a
comma in it. The mnemonic tells the form of the instruction, its operation or condition, and how
much of an operand it touches, and with that the texts give back the operands. What is ambiguous is
the stack pointer: code for the stack is spelled like a sum or a difference with it.
-/

namespace IntegerC.Machine

open Text (NameChars isNameChar Unbroken)

/-! ## Lines of code -/

/-- A text that can stand between the tabs and commas of a line of code. -/
def Piece (s : String) : Prop := ∀ c ∈ s.toList, c ∉ ['\t', ',', ':', '\n', '\r']

instance (s : String) : Decidable (Piece s) := List.decidableBAll _ s.toList

theorem Piece.append {s s' : String} (h : Piece s) (h' : Piece s') : Piece (s ++ s') := by
  intro c hc
  rw [String.toList_append] at hc
  exact (List.mem_append.1 hc).elim (h c) (h' c)

theorem Piece.of_nameChars {s : String} (h : NameChars s.toList) : Piece s := by
  have hno : ['\t', ',', ':', '\n', '\r'].all (fun c => !isNameChar c) = true := by decide
  intro c hc hmem
  have hnot := List.all_eq_true.1 hno c hmem
  rw [h c hc] at hnot
  cases hnot

theorem Piece.notMem {s : String} (h : Piece s) {c : Char}
    (hc : c ∈ ['\t', ',', ':', '\n', '\r']) : c ∉ s.toList :=
  fun hmem => h c hmem hc

theorem Piece.inner {s : String} (h : Piece s) : Inner s := by
  intro c hc
  refine ⟨?_, ?_, ?_⟩ <;>
  · rintro rfl
    exact h _ hc (by decide)

theorem nameChars_repr (n : Nat) : NameChars n.repr.toList := by
  intro c hc
  rw [Nat.toList_repr] at hc
  simp [isNameChar, isWordChar_of_mem_toDigits hc]

theorem piece_toString (n : Int) : Piece (toString n) := by
  have hno : ['\t', ',', ':', '\n', '\r'].all (fun c => !isNumeral c) = true := by decide
  intro c hc hmem
  have hnot := List.all_eq_true.1 hno c hmem
  rw [isNumeral_of_mem_toString hc] at hnot
  cases hnot

theorem toList_codeLine (mnemonic : String) (operands : List String) :
    (codeLine mnemonic operands).toList = '\t' :: (mnemonic.toList ++
      if operands = [] then [] else '\t' :: (", ".intercalate operands).toList) := by
  cases operands <;> simp [codeLine]

/-- A line of code is given back by its mnemonic and its operands. -/
theorem codeLine_inj {m m' : String} {xs xs' : List String} (hm : Piece m) (hm' : Piece m')
    (hx : ∀ x ∈ xs, Piece x) (hx' : ∀ x ∈ xs', Piece x) (h : codeLine m xs = codeLine m' xs') :
    m = m' ∧ xs = xs' := by
  have htab : '\t' ∉ m.toList := hm.notMem (by decide)
  have htab' : '\t' ∉ m'.toList := hm'.notMem (by decide)
  have hlists := congrArg String.toList h
  rw [toList_codeLine, toList_codeLine] at hlists
  have hlists := (List.cons.inj hlists).2
  by_cases hxs : xs = []
  · by_cases hxs' : xs' = []
    · rw [if_pos hxs, if_pos hxs', List.append_nil, List.append_nil] at hlists
      exact ⟨String.toList_inj.1 hlists, hxs.trans hxs'.symm⟩
    · rw [if_pos hxs, if_neg hxs', List.append_nil] at hlists
      rw [hlists] at htab
      simp at htab
  · by_cases hxs' : xs' = []
    · rw [if_neg hxs, if_pos hxs', List.append_nil] at hlists
      rw [← hlists] at htab'
      simp at htab'
    · rw [if_neg hxs, if_neg hxs'] at hlists
      obtain ⟨hmnemonics, hoperands⟩ := eq_of_append_cons_eq_first htab htab' hlists
      have hcomma : ", ".toList = [',', ' '] := String.toList_ofList
      exact ⟨String.toList_inj.1 hmnemonics, eq_of_joined_eq hcomma
        (fun x hmem => (hx x hmem).notMem (by decide))
        (fun x hmem => (hx' x hmem).notMem (by decide)) (fun e => absurd e hxs)
        (fun e => absurd e hxs') (String.toList_inj.1 hoperands)⟩

theorem codeLine_begins (mnemonic : String) (operands : List String) :
    (codeLine mnemonic operands).toList.head? = some '\t' := by
  rw [toList_codeLine]
  rfl

/-! ## Operands -/

namespace Operand

/-- An operand whose name, if it has one, is made of the characters of names. -/
def Spelled (x : Operand) : Prop := ∀ name, x = .data name → NameChars name.toList

instance : (x : Operand) → Decidable x.Spelled
  | .data name => decidable_of_iff (NameChars name.toList)
      ⟨fun h _ e => Operand.data.inj e ▸ h, fun h => h name rfl⟩
  | .imm _ | .reg _ | .pseudo _ | .stack _ => .isTrue nofun

/-- What stands in the text of an operand before its first sign, if that is not a minus. -/
def front (p : Platform) : Operand → String
  | stack offset => toString offset
  | data name => p.symbol name
  | _ => ""

/-- The text of an operand from its first sign on. -/
def back (a : Access) : Operand → String
  | imm n => "$" ++ toString n
  | reg r => r.text a
  | stack _ => "(%rbp)"
  | data _ => "(%rip)"
  | pseudo _ => ""

end Operand

/-- A character of a name or of a number. -/
def IsFront (c : Char) : Prop := isNameChar c = true ∨ c = '-'

instance (c : Char) : Decidable (IsFront c) :=
  inferInstanceAs (Decidable (isNameChar c = true ∨ c = '-'))

theorem isFront_toString (n : Int) : ∀ c ∈ (toString n).toList, IsFront c := by
  intro c hc
  have hnumeral := isNumeral_of_mem_toString hc
  rw [isNumeral, Bool.or_eq_true, decide_eq_true_eq] at hnumeral
  exact hnumeral.imp_left fun hdigit => by simp [isNameChar, Text.isWordChar, hdigit]

theorem Reg.text_begins (r : Reg) (a : Access) : (r.text a).toList.head? = some '%' := by
  cases r <;> cases a <;> decide

theorem Reg.piece_text (r : Reg) (a : Access) : Piece (r.text a) := by
  cases r <;> cases a <;> decide

def Reg.all : List Reg := [.ax, .cx, .dx, .di, .si, .r8, .r9, .r10, .r11, .sp]

theorem Reg.mem_all (r : Reg) : r ∈ all := by cases r <;> decide

theorem Reg.text_inj {r r' : Reg} {a : Access} (h : r.text a = r'.text a) : r = r' := by
  have hnodup : (all.map (text · a)).Nodup := by cases a <;> decide +kernel
  exact List.inj_on_of_nodup_map hnodup r.mem_all r'.mem_all h

namespace Platform

variable {p : Platform} {s : Symbols} {a : Access} {x y : Operand} {text : String}

theorem nameChars_symbol (p : Platform) {name : String} (h : NameChars name.toList) :
    NameChars (p.symbol name).toList := by
  cases p with
  | linux => exact h
  | macos =>
      have hunderscore : NameChars "_".toList := by decide
      rw [symbol, String.toList_append]
      exact List.forall_mem_append.2 ⟨hunderscore, h⟩

theorem piece_symbol (p : Platform) {name : String} (h : NameChars name.toList) :
    Piece (p.symbol name) :=
  .of_nameChars (p.nameChars_symbol h)

theorem piece_label (p : Platform) {name : String} (h : NameChars name.toList) :
    Piece (p.label name) := by
  cases p <;> exact Piece.append (by decide) (.of_nameChars h)

/-- An operand that is written is no pseudo register; it is spelled from its front and its back. -/
theorem operand_eq_ok (h : p.operand a x = .ok text) :
    text = x.front p ++ x.back a ∧ ∀ name, x ≠ .pseudo name := by
  cases x with
  | pseudo name => cases h
  | imm n | reg r =>
      cases h
      exact ⟨String.empty_append.symm, by simp⟩
  | stack offset | data name =>
      cases h
      exact ⟨rfl, by simp⟩

theorem isFront_front (hx : x.Spelled) : ∀ c ∈ (x.front p).toList, IsFront c := by
  cases x with
  | stack offset => exact isFront_toString offset
  | data name => exact fun c hc => .inl (p.nameChars_symbol (hx name rfl) c hc)
  | imm _ | reg _ | pseudo _ => simp [Operand.front]

/-- The rest of a spelled operand begins with a sign, so the front ends there. -/
theorem not_isFront_back : ∀ c ∈ (x.back a).toList.head?, ¬ IsFront c := by
  have hfirst : ∀ {t : String} {c : Char}, t.toList.head? = some c → ¬ IsFront c →
      ∀ d ∈ t.toList.head?, ¬ IsFront d := by
    intro t c ht hc d hd
    rw [ht] at hd
    cases hd
    exact hc
  cases x with
  | imm n =>
      have hback : ("$" ++ toString n).toList.head? = some '$' := by simp
      exact hfirst hback (by decide)
  | reg r => exact hfirst (r.text_begins a) (by decide)
  | stack _ =>
      have hback : "(%rbp)".toList.head? = some '(' := by decide
      exact hfirst hback (by decide)
  | data _ =>
      have hback : "(%rip)".toList.head? = some '(' := by decide
      exact hfirst hback (by decide)
  | pseudo _ => simp [Operand.back]

/-- The text of an operand gives back the operand. -/
theorem operand_inj (hx : x.Spelled) (hy : y.Spelled) (h : p.operand a x = .ok text)
    (h' : p.operand a y = .ok text) : x = y := by
  obtain ⟨htext, hnx⟩ := operand_eq_ok h
  obtain ⟨htext', hny⟩ := operand_eq_ok h'
  have hlists := congrArg String.toList (htext.symm.trans htext')
  rw [String.toList_append, String.toList_append] at hlists
  obtain ⟨hfront, hback⟩ := append_inj_of_forall (isFront_front hx) (isFront_front hy)
    not_isFront_back not_isFront_back hlists
  have hfront := String.toList_inj.1 hfront
  have hback := String.toList_inj.1 hback
  -- operands of different forms have different signs behind the front
  have hheads := congrArg (fun t => t.toList.head?) hback
  cases x with
  | pseudo name => exact absurd rfl (hnx name)
  | imm n =>
      cases y with
      | imm m =>
          have hnumbers := (String.append_right_inj "$").1 hback
          exact congrArg Operand.imm (toString_int_inj hnumbers)
      | _ => simp [Operand.back, Reg.text_begins] at hheads
  | reg r =>
      cases y with
      | reg r' => exact congrArg Operand.reg (Reg.text_inj hback)
      | _ => simp [Operand.back, Reg.text_begins] at hheads
  | stack offset =>
      cases y with
      | stack offset' => exact congrArg Operand.stack (toString_int_inj hfront)
      | data _ => exact absurd hback (show "(%rbp)" ≠ "(%rip)" by decide)
      | _ => simp [Operand.back, Reg.text_begins] at hheads
  | data name =>
      cases y with
      | data name' => exact congrArg Operand.data (Program.symbol_injective p hfront)
      | stack _ => exact absurd hback (show "(%rip)" ≠ "(%rbp)" by decide)
      | _ => simp [Operand.back, Reg.text_begins] at hheads

/-- No operand has a tab or a comma in it. -/
theorem operand_piece (hx : x.Spelled) (h : p.operand a x = .ok text) : Piece text := by
  cases x with
  | imm n =>
      cases h
      exact Piece.append (show Piece "$" by decide) (piece_toString n)
  | reg r =>
      cases h
      exact r.piece_text a
  | stack offset =>
      cases h
      exact (piece_toString offset).append (show Piece "(%rbp)" by decide)
  | data name =>
      cases h
      exact (p.piece_symbol (hx name rfl)).append (by decide)
  | pseudo name => cases h

/-- The base of the frame is no operand. -/
theorem operand_ne_base : p.operand a x ≠ .ok "%rbp" := by
  intro h
  obtain ⟨htext, -⟩ := operand_eq_ok h
  have hsigns : '$' ∉ "%rbp".toList ∧ '(' ∉ "%rbp".toList := by decide
  cases x with
  | reg r =>
      have hreg : r.text a ≠ "%rbp" := by cases r <;> cases a <;> decide
      exact hreg (Except.ok.inj h)
  | pseudo name => cases h
  | _ =>
      rw [htext] at hsigns
      simp [Operand.front, Operand.back] at hsigns

end Platform

/-! ## Instructions with a mnemonic -/

/-- What a mnemonic tells of an instruction. -/
inductive Opcode where
  | mov (w : Width)
  | movsx
  | unary (op : UnaryOp) (w : Width)
  | binary (op : BinaryOp) (w : Width)
  | cmp (w : Width)
  | idiv (w : Width)
  | div (w : Width)
  | cdq (w : Width)
  | jmp
  | jmpCC (c : Cond)
  | setCC (c : Cond)
  | push
  | call

/-- What stands behind a mnemonic: an operand, of which the instruction touches so many bytes, a
place in the code or a function. -/
inductive Field where
  | operand (a : Access) (x : Operand)
  | label (name : String)
  | callee (name : String)

/-- What can stand at some place behind a mnemonic. -/
inductive FieldKind where
  | operand (a : Access)
  | label
  | callee

namespace Field

def kind : Field → FieldKind
  | operand a _ => .operand a
  | label _ => .label
  | callee _ => .callee

def text (p : Platform) (s : Symbols) : Field → Except Fault String
  | operand a x => p.operand a x
  | label name => .ok (p.label name)
  | callee name => .ok (p.callee s name)

def Spelled : Field → Prop
  | operand _ x => x.Spelled
  | label name | callee name => NameChars name.toList

variable {p : Platform} {s : Symbols} {f g : Field} {t : String}

/-- What a call names tells the function, also where it is called through the linkage table. -/
theorem callee_inj {x y : String} (hx : NameChars x.toList) (hy : NameChars y.toList)
    (h : p.callee s x = p.callee s y) : x = y := by
  have hplt : ∀ {x y : String}, NameChars y.toList → x ++ "@PLT" ≠ y := by
    rintro x y hy rfl
    have hat : isNameChar '@' = true := hy '@' (by simp)
    cases hat
  cases p with
  | macos => exact Program.symbol_injective .macos h
  | linux =>
      unfold Platform.callee at h
      dsimp only at h
      split at h <;> split at h
      · exact h
      · exact absurd h.symm (hplt hx)
      · exact absurd h (hplt hy)
      · exact (String.append_left_inj _).1 h

/-- A field of a known kind can be read back from its text. -/
theorem text_inj (hf : f.Spelled) (hg : g.Spelled) (hk : f.kind = g.kind)
    (h : f.text p s = .ok t) (h' : g.text p s = .ok t) : f = g := by
  cases f with
  | operand a x =>
      cases g with
      | operand b y =>
          obtain rfl : a = b := FieldKind.operand.inj hk
          rw [Platform.operand_inj hf hg h h']
      | _ => cases hk
  | label x =>
      cases g with
      | label y =>
          have hxy := (Except.ok.inj h).trans (Except.ok.inj h').symm
          rw [Program.label_injective p hxy]
      | _ => cases hk
  | callee x =>
      cases g with
      | callee y =>
          rw [callee_inj hf hg ((Except.ok.inj h).trans (Except.ok.inj h').symm)]
      | _ => cases hk

theorem text_piece (hf : f.Spelled) (h : f.text p s = .ok t) : Piece t := by
  cases f with
  | operand a x => exact Platform.operand_piece hf h
  | label name =>
      cases h
      exact p.piece_label hf
  | callee name =>
      cases h
      cases p with
      | macos => exact Platform.piece_symbol .macos hf
      | linux =>
          unfold Platform.callee
          dsimp only
          split
          · exact .of_nameChars hf
          · exact (Piece.of_nameChars hf).append (by decide)

end Field

namespace Opcode

def mnemonic : Opcode → String
  | mov w => "mov" ++ w.letter
  | movsx => "movslq"
  | unary op w => op.mnemonic ++ w.letter
  | binary op w => op.mnemonic ++ w.letter
  | cmp w => "cmp" ++ w.letter
  | idiv w => "idiv" ++ w.letter
  | div w => "div" ++ w.letter
  | cdq .longword => "cdq"
  | cdq .quadword => "cqo"
  | jmp => "jmp"
  | jmpCC c => "j" ++ c.letters
  | setCC c => "set" ++ c.letters
  | push => "pushq"
  | call => "call"

def kinds : Opcode → List FieldKind
  | mov w | cmp w => [.operand w.access, .operand w.access]
  | movsx => [.operand .longword, .operand .quadword]
  | unary _ w | idiv w | div w => [.operand w.access]
  | binary op w => [.operand (if op.isShift then .byte else w.access), .operand w.access]
  | cdq _ => []
  | jmp | jmpCC _ => [.label]
  | setCC _ => [.operand .byte]
  | push => [.operand .quadword]
  | call => [.callee]

def conds : List Cond := [.e, .ne, .g, .ge, .l, .le, .a, .ae, .b, .be]

def all : List Opcode :=
  [movsx, jmp, push, call] ++ conds.map jmpCC ++ conds.map setCC ++
    [Width.longword, .quadword].flatMap fun w =>
      [mov w, cmp w, idiv w, div w, cdq w, unary .neg w, unary .not w] ++
        [BinaryOp.add, .sub, .mult, .and, .or, .xor, .sal, .sar, .shr].map (binary · w)

theorem mem_all (o : Opcode) : o ∈ all := by
  cases o with
  | mov w | cmp w | idiv w | div w | cdq w => cases w <;> simp [all]
  | unary op w | binary op w => cases op <;> cases w <;> simp [all]
  | jmpCC c | setCC c => cases c <;> simp [all, conds]
  | _ => simp [all]

/-- No two forms have the same mnemonic. -/
theorem mnemonic_injective : Function.Injective mnemonic := by
  have hnodup : (all.map mnemonic).Nodup := by decide +kernel
  exact fun o o' h => List.inj_on_of_nodup_map hnodup o.mem_all o'.mem_all h

theorem piece_mnemonic (o : Opcode) : Piece o.mnemonic := by
  have hall : ∀ m ∈ all.map mnemonic, Piece m := by decide +kernel
  exact hall _ (List.mem_map_of_mem o.mem_all)

/-- What a difference or a sum with the stack pointer is taken for. -/
def moveStack? : BinaryOp → Operand → Option Instr
  | .sub, .imm n => some (.allocateStack n.toNat)
  | .add, .imm n => some (.deallocateStack n.toNat)
  | _, _ => none

/-- The instruction that is read back from a mnemonic and what stands behind it. -/
def instr? : Opcode → List Field → Option Instr
  | mov w, [.operand _ src, .operand _ dst] => some (.mov w src dst)
  | movsx, [.operand _ src, .operand _ dst] => some (.movsx src dst)
  | unary op w, [.operand _ x] => some (.unary op w x)
  | binary op w, [.operand _ src, .operand _ dst] =>
      if dst = .reg .sp then moveStack? op src else some (.binary op w src dst)
  | cmp w, [.operand _ src, .operand _ dst] => some (.cmp w src dst)
  | idiv w, [.operand _ x] => some (.idiv w x)
  | div w, [.operand _ x] => some (.div w x)
  | cdq w, [] => some (.cdq w)
  | jmp, [.label l] => some (.jmp l)
  | jmpCC c, [.label l] => some (.jmpCC c l)
  | setCC c, [.operand _ x] => some (.setCC c x)
  | push, [.operand _ x] => some (.push x)
  | call, [.callee f] => some (.call f)
  | _, _ => none

end Opcode

namespace Instr

/-- What the mnemonic of an instruction tells, if it is written as one line with a mnemonic. -/
def opcode? : Instr → Option Opcode
  | mov w _ _ => some (.mov w)
  | movsx _ _ => some .movsx
  | movZeroExtend _ _ => none
  | unary op w _ => some (.unary op w)
  | binary op w _ _ => some (.binary op w)
  | cmp w _ _ => some (.cmp w)
  | idiv w _ => some (.idiv w)
  | div w _ => some (.div w)
  | cdq w => some (.cdq w)
  | jmp _ => some .jmp
  | jmpCC c _ => some (.jmpCC c)
  | setCC c _ => some (.setCC c)
  | label _ => none
  | allocateStack _ => some (.binary .sub .quadword)
  | deallocateStack _ => some (.binary .add .quadword)
  | push _ => some .push
  | call _ => some .call
  | ret => none

def fields : Instr → List Field
  | mov w src dst | cmp w src dst => [.operand w.access src, .operand w.access dst]
  | movsx src dst => [.operand .longword src, .operand .quadword dst]
  | unary _ w x | idiv w x | div w x => [.operand w.access x]
  | binary op w src dst =>
      [.operand (if op.isShift then .byte else w.access) src, .operand w.access dst]
  | jmp l | jmpCC _ l => [.label l]
  | setCC _ x => [.operand .byte x]
  | allocateStack n | deallocateStack n =>
      [.operand .quadword (.imm n), .operand .quadword (.reg .sp)]
  | push x => [.operand .quadword x]
  | call f => [.callee f]
  | movZeroExtend _ _ | cdq _ | label _ | ret => []

variable {i : Instr} {o : Opcode}

theorem kinds_fields (h : i.opcode? = some o) : i.fields.map Field.kind = o.kinds := by
  cases i <;> cases h <;> rfl

/-- An instruction is read back from its mnemonic and its fields. -/
theorem instr?_fields (h : i.opcode? = some o) (hs : .reg .sp ∉ i.operands) :
    o.instr? i.fields = some i := by
  cases i with
  | binary op w src dst =>
      cases h
      exact if_neg fun e => hs (by simp [operands, e])
  | allocateStack n | deallocateStack n =>
      cases h
      simp [fields, Opcode.instr?, Opcode.moveStack?]
  | _ => cases h <;> rfl

end Instr

end IntegerC.Machine
