import IntegerC.Proofs.Machine.Balance
import IntegerC.Proofs.Machine.LineCodes

set_option autoImplicit false

/-! # Assembly text read back

The text of a program gives back its static variables and its functions. Its blocks are what stands
between blank lines, a block is that of a function exactly if it switches to the text section, and
the instructions of a function are read off its lines one after the other.
-/

namespace IntegerC.Machine

open Text (NameChars Unbroken)

/-! ## Instructions -/

/-- An instruction whose names are made of the characters of names, and that uses the stack pointer
only as code for the stack does. -/
structure Instr.Spelled (i : Instr) : Prop where
  mark : ∀ m ∈ i.mark?, NameChars m.name.toList
  operands : ∀ x ∈ i.operands, x.Spelled
  stack : .reg .sp ∉ i.operands

instance (i : Instr) : Decidable i.Spelled :=
  decidable_of_iff ((∀ m ∈ i.mark?, NameChars m.name.toList) ∧ (∀ x ∈ i.operands, x.Spelled) ∧
    .reg .sp ∉ i.operands) ⟨fun h => ⟨h.1, h.2.1, h.2.2⟩, fun h => ⟨h.mark, h.operands, h.stack⟩⟩

/-- The names in a well spelled instruction are spelled so in every field of its line. -/
theorem Instr.Spelled.fields {i : Instr} (h : i.Spelled) : ∀ f ∈ i.fields, f.Spelled := by
  have hone : ∀ {x : Operand} {a : Access}, i.operands = [x] →
      ∀ f ∈ [Field.operand a x], f.Spelled :=
    fun e => List.forall_mem_singleton.2 (h.operands _ (by simp [e]))
  have htwo : ∀ {x y : Operand} {a b : Access}, i.operands = [x, y] →
      ∀ f ∈ [Field.operand a x, .operand b y], f.Spelled := fun e =>
    List.forall_mem_cons.2 ⟨h.operands _ (by simp [e]),
      List.forall_mem_singleton.2 (h.operands _ (by simp [e]))⟩
  cases i with
  | mov _ _ _ | cmp _ _ _ | movsx _ _ | binary _ _ _ _ => exact htwo rfl
  | unary _ _ _ | idiv _ _ | div _ _ | setCC _ _ | push _ => exact hone rfl
  | jmp l | jmpCC _ l => exact List.forall_mem_singleton.2 (h.mark (.jump l) rfl)
  | call f => exact List.forall_mem_singleton.2 (h.mark (.call f) rfl)
  | allocateStack _ | deallocateStack _ =>
      exact List.forall_mem_cons.2 ⟨nofun, List.forall_mem_singleton.2 nofun⟩
  | movZeroExtend _ _ | cdq _ | label _ | ret => exact List.forall_mem_nil _

namespace Platform

variable {p : Platform} {s : Symbols} {i j : Instr} {o : Opcode} {lines lines' : List String}

/-- An instruction with a mnemonic is written as one line of it and of the texts of the fields. -/
theorem instrLines_eq_of_opcode (ho : i.opcode? = some o) :
    p.instrLines s i = (i.fields.mapM (Field.text p s)).map fun xs => [codeLine o.mnemonic xs] := by
  -- fields are written from left to right, and the first fault is that of the line
  have hone : ∀ (mnemonic : String) (a : Access) (x : Operand), p.unaryLine mnemonic a x =
      ([Field.operand a x].mapM (Field.text p s)).map fun xs => [codeLine mnemonic xs] := by
    intro mnemonic a x
    simp only [List.mapM_cons, List.mapM_nil, Field.text, unaryLine]
    cases p.operand a x <;> rfl
  have htwo : ∀ (mnemonic : String) (a b : Access) (src dst : Operand),
      p.binaryLine mnemonic a b src dst =
        ([Field.operand a src, .operand b dst].mapM (Field.text p s)).map
          fun xs => [codeLine mnemonic xs] := by
    intro mnemonic a b src dst
    simp only [List.mapM_cons, List.mapM_nil, Field.text, binaryLine]
    cases p.operand a src with
    | error f => rfl
    | ok t => cases p.operand b dst <;> rfl
  cases i with
  | mov _ _ _ | cmp _ _ _ | movsx _ _ | binary _ _ _ _ =>
      cases ho
      exact htwo _ _ _ _ _
  | unary _ _ _ | idiv _ _ | div _ _ | setCC _ _ | push _ =>
      cases ho
      exact hone _ _ _
  | cdq w =>
      cases ho
      cases w <;> rfl
  | jmp _ | jmpCC _ _ | call _ | allocateStack _ | deallocateStack _ =>
      cases ho
      rfl
  | movZeroExtend _ _ | label _ | ret => cases ho

theorem instrLines_eq_codeLine (ho : i.opcode? = some o) (h : p.instrLines s i = .ok lines) :
    ∃ xs, lines = [codeLine o.mnemonic xs] ∧
      List.Forall₂ (fun f x => f.text p s = .ok x) i.fields xs := by
  rw [instrLines_eq_of_opcode ho] at h
  obtain ⟨xs, hxs, rfl⟩ := map_eq_ok.1 h
  exact ⟨xs, rfl, forall₂_of_mapM_eq_ok hxs⟩

/-- What is written has a mnemonic, or is a label or a return. -/
theorem form_of_instrLines (h : p.instrLines s i = .ok lines) :
    (∃ o, i.opcode? = some o) ∨ (∃ l, i = .label l) ∨ i = .ret := by
  cases i with
  | label l => exact .inr (.inl ⟨l, rfl⟩)
  | ret => exact .inr (.inr rfl)
  | movZeroExtend _ _ => cases h
  | _ => exact .inl ⟨_, rfl⟩

theorem codeLine_ne_label {mnemonic name : String} {operands : List String} (h : Piece name) :
    codeLine mnemonic operands ≠ name ++ ":" := by
  intro e
  have htab : '\t' ∈ (name ++ ":").toList := List.mem_of_head? (e ▸ codeLine_begins _ _)
  rw [String.toList_append, List.mem_append] at htab
  exact htab.elim (h.notMem (by decide)) (by decide)

/-- The first line of a return copies what is no operand. -/
theorem codeLine_ne_ret {xs : List String} (ho : i.opcode? = some o)
    (hxs : List.Forall₂ (fun f x => f.text p s = .ok x) i.fields xs) (hx : ∀ x ∈ xs, Piece x) :
    codeLine o.mnemonic xs ≠ codeLine "movq" ["%rbp", "%rsp"] := by
  intro h
  obtain ⟨hmnemonic, rfl⟩ := codeLine_inj o.piece_mnemonic (by decide) hx (by decide) h
  obtain rfl : o = .mov .quadword := Opcode.mnemonic_injective hmnemonic
  cases i <;> cases ho
  cases hxs with
  | cons hbase _ => exact operand_ne_base hbase

theorem piece_of_fields (h : i.Spelled) {xs : List String}
    (hxs : List.Forall₂ (fun f x => f.text p s = .ok x) i.fields xs) : ∀ x ∈ xs, Piece x := by
  intro x hx
  obtain ⟨f, hf, hfx⟩ := forall₂_exists_left hxs hx
  exact Field.text_piece (h.fields f hf) hfx

/-- Fields of the same kinds are given back by their texts. -/
theorem fields_eq_of_texts {fs gs : List Field} {xs : List String} (hf : ∀ f ∈ fs, f.Spelled)
    (hg : ∀ g ∈ gs, g.Spelled) (hk : fs.map Field.kind = gs.map Field.kind)
    (h : List.Forall₂ (fun f x => f.text p s = .ok x) fs xs)
    (h' : List.Forall₂ (fun g x => g.text p s = .ok x) gs xs) : fs = gs := by
  induction h generalizing gs with
  | nil =>
      cases h'
      rfl
  | cons hfx _ ih =>
      cases h' with
      | cons hgx hgs =>
          obtain ⟨hf, hfs⟩ := List.forall_mem_cons.1 hf
          obtain ⟨hg, hgs'⟩ := List.forall_mem_cons.1 hg
          obtain ⟨hkind, hkinds⟩ := List.cons.inj hk
          rw [Field.text_inj hf hg hkind hfx hgx, ih hfs hgs' hkinds hgs]

/-- The first line of an instruction gives back the whole instruction. -/
theorem eq_of_head (hi : i.Spelled) (hj : j.Spelled) (h : p.instrLines s i = .ok lines)
    (h' : p.instrLines s j = .ok lines') (hhead : lines.head? = lines'.head?) : i = j := by
  -- the first line tells the form of the instruction, and then the fields of that form
  rcases form_of_instrLines h with ⟨o, ho⟩ | ⟨l, rfl⟩ | rfl
  · obtain ⟨xs, rfl, hxs⟩ := instrLines_eq_codeLine ho h
    have hpieces := piece_of_fields hi hxs
    rcases form_of_instrLines h' with ⟨o', ho'⟩ | ⟨l', rfl⟩ | rfl
    · obtain ⟨ys, rfl, hys⟩ := instrLines_eq_codeLine ho' h'
      obtain ⟨hmnemonic, rfl⟩ := codeLine_inj o.piece_mnemonic o'.piece_mnemonic hpieces
        (piece_of_fields hj hys) (Option.some.inj hhead)
      obtain rfl := Opcode.mnemonic_injective hmnemonic
      have hfields := fields_eq_of_texts hi.fields hj.fields
        ((i.kinds_fields ho).trans (j.kinds_fields ho').symm) hxs hys
      have hread := j.instr?_fields ho' hj.stack
      rw [← hfields, i.instr?_fields ho hi.stack] at hread
      exact Option.some.inj hread
    · cases h'
      have hl : Piece (p.label l') := p.piece_label (hj.mark (.label l') rfl)
      exact absurd (Option.some.inj hhead) (codeLine_ne_label hl)
    · cases h'
      exact absurd (Option.some.inj hhead) (codeLine_ne_ret ho hxs hpieces)
  · cases h
    have hl : Piece (p.label l) := p.piece_label (hi.mark (.label l) rfl)
    rcases form_of_instrLines h' with ⟨o', ho'⟩ | ⟨l', rfl⟩ | rfl
    · obtain ⟨ys, rfl, -⟩ := instrLines_eq_codeLine ho' h'
      exact absurd (Option.some.inj hhead).symm (codeLine_ne_label hl)
    · cases h'
      have hlabels := (String.append_left_inj ":").1 (Option.some.inj hhead)
      rw [Program.label_injective p hlabels]
    · cases h'
      exact absurd (Option.some.inj hhead).symm (codeLine_ne_label hl)
  · cases h
    rcases form_of_instrLines h' with ⟨o', ho'⟩ | ⟨l', rfl⟩ | rfl
    · obtain ⟨ys, rfl, hys⟩ := instrLines_eq_codeLine ho' h'
      exact absurd (Option.some.inj hhead).symm (codeLine_ne_ret ho' hys (piece_of_fields hj hys))
    · cases h'
      have hl : Piece (p.label l') := p.piece_label (hj.mark (.label l') rfl)
      exact absurd (Option.some.inj hhead) (codeLine_ne_label hl)
    · rfl

example {p : Platform} : p.instrLines s (.allocateStack 8) =
    p.instrLines s (.binary .sub .quadword (.imm 8) (.reg .sp)) := rfl

theorem instrLines_ne_nil (h : p.instrLines s i = .ok lines) : lines ≠ [] := by
  rcases form_of_instrLines h with ⟨o, ho⟩ | ⟨l, rfl⟩ | rfl
  · obtain ⟨xs, rfl, -⟩ := instrLines_eq_codeLine ho h
    exact List.cons_ne_nil _ _
  · cases h
    exact List.cons_ne_nil _ _
  · cases h
    exact List.cons_ne_nil _ _

/-- The lines of instructions give back the instructions. -/
theorem instrsLines_inj {is js : List Instr} (hi : ∀ i ∈ is, i.Spelled) (hj : ∀ j ∈ js, j.Spelled)
    (h : p.instrsLines s is = .ok lines) (h' : p.instrsLines s js = .ok lines) : is = js := by
  induction is generalizing js lines with
  | nil =>
      cases h
      cases js with
      | nil => rfl
      | cons j js =>
          obtain ⟨ls, hls, h'⟩ := bind_eq_ok.1 h'
          obtain ⟨rest, -, h'⟩ := bind_eq_ok.1 h'
          exact absurd (List.append_eq_nil_iff.1 (Except.ok.inj h')).1 (instrLines_ne_nil hls)
  | cons i is ih =>
      obtain ⟨ls, hls, h⟩ := bind_eq_ok.1 h
      obtain ⟨rest, hrest, h⟩ := bind_eq_ok.1 h
      cases js with
      | nil =>
          cases h'
          exact absurd (List.append_eq_nil_iff.1 (Except.ok.inj h)).1 (instrLines_ne_nil hls)
      | cons j js =>
          obtain ⟨ls', hls', h'⟩ := bind_eq_ok.1 h'
          obtain ⟨rest', hrest', h'⟩ := bind_eq_ok.1 h'
          obtain ⟨hi, his⟩ := List.forall_mem_cons.1 hi
          obtain ⟨hj, hjs⟩ := List.forall_mem_cons.1 hj
          have hlines : ls ++ rest = ls' ++ rest' :=
            (Except.ok.inj h).trans (Except.ok.inj h').symm
          have hhead : ls.head? = ls'.head? := by
            have hheads := congrArg List.head? hlines
            rwa [List.head?_append_of_ne_nil _ (instrLines_ne_nil hls),
              List.head?_append_of_ne_nil _ (instrLines_ne_nil hls')] at hheads
          obtain rfl := eq_of_head hi hj hls hls' hhead
          -- the same instruction is written in the same way
          obtain rfl := Except.ok.inj (hls.symm.trans hls')
          obtain rfl := List.append_cancel_left hlines
          rw [ih his hjs hrest hrest']

end Platform

/-! ## Lines of blocks -/

/-- A line that is not empty and does not end early. -/
def Written (line : String) : Prop := line ≠ "" ∧ Unbroken line

theorem written_codeLine {mnemonic : String} {operands : List String} (hm : Piece mnemonic)
    (ho : ∀ x ∈ operands, Piece x) : Written (codeLine mnemonic operands) := by
  refine ⟨fun h => ?_, ?_⟩
  · have hbegins := codeLine_begins mnemonic operands
    rw [h] at hbegins
    cases hbegins
  · exact (Lines.code hm.inner fun x hx => (ho x hx).inner).unbroken _ (List.mem_singleton_self _)

theorem written_label {name : String} (h : Piece name) : Written (name ++ ":") := by
  refine ⟨fun e => ?_, (Lines.label h.inner).unbroken _ (List.mem_singleton_self _)⟩
  have hlists := congrArg String.toList e
  simp at hlists

/-- The lines of a block: there are some, and blank lines stand only between blocks. -/
structure Block (lines : List String) : Prop where
  nonempty : lines ≠ []
  written : ∀ line ∈ lines, Written line

namespace Platform

variable {p : Platform} {s : Symbols} {i j : Instr} {lines lines' : List String}

/-- No line of an instruction is empty or ends early. -/
theorem instrLines_written (hi : i.Spelled) (h : p.instrLines s i = .ok lines) :
    ∀ line ∈ lines, Written line := by
  rcases form_of_instrLines h with ⟨o, ho⟩ | ⟨l, rfl⟩ | rfl
  · obtain ⟨xs, rfl, hxs⟩ := instrLines_eq_codeLine ho h
    rw [List.forall_mem_singleton]
    exact written_codeLine o.piece_mnemonic (piece_of_fields hi hxs)
  · cases h
    rw [List.forall_mem_singleton]
    exact written_label (p.piece_label (hi.mark (.label l) rfl))
  · cases h
    exact List.forall_mem_cons.2 ⟨written_codeLine (by decide) (by decide),
      List.forall_mem_cons.2 ⟨written_codeLine (by decide) (by decide),
        List.forall_mem_singleton.2 (written_codeLine (by decide) (by decide))⟩⟩

theorem instrsLines_written {is : List Instr} (hi : ∀ i ∈ is, i.Spelled)
    (h : p.instrsLines s is = .ok lines) : ∀ line ∈ lines, Written line := by
  induction is generalizing lines with
  | nil =>
      cases h
      exact List.forall_mem_nil _
  | cons i is ih =>
      obtain ⟨hi, his⟩ := List.forall_mem_cons.1 hi
      obtain ⟨ls, hls, h⟩ := bind_eq_ok.1 h
      obtain ⟨rest, hrest, h⟩ := bind_eq_ok.1 h
      cases h
      exact List.forall_mem_append.2 ⟨instrLines_written hi hls, ih his hrest⟩

theorem globalLine_written {x : String} (h : NameChars x.toList) (global : Bool) :
    ∀ line ∈ p.globalLine global x, Written line := by
  cases global with
  | false => exact List.forall_mem_nil _
  | true =>
      exact List.forall_mem_singleton.2
        (written_codeLine (by decide) (List.forall_mem_singleton.2 (p.piece_symbol h)))

/-- Whether there is a line for other units is seen from the first line without operands. -/
theorem globalLine_append_inj {global global' : Bool} {x y part part' : String}
    (hx : NameChars x.toList) (hy : NameChars y.toList) (hp : Piece part) (hp' : Piece part')
    (h : p.globalLine global x ++ codeLine part [] :: lines =
      p.globalLine global' y ++ codeLine part' [] :: lines') :
    global = global' ∧ part = part' ∧ lines = lines' := by
  have hne : ∀ {x part : String}, NameChars x.toList → Piece part →
      codeLine ".globl" [p.symbol x] ≠ codeLine part [] := by
    intro x part hx hpart e
    have hoperands := (codeLine_inj (by decide) hpart
      (List.forall_mem_singleton.2 (p.piece_symbol hx)) (List.forall_mem_nil _) e).2
    cases hoperands
  have hpart : ∀ {ls ls' : List String},
      codeLine part [] :: ls = codeLine part' [] :: ls' → part = part' ∧ ls = ls' := by
    intro ls ls' e
    obtain ⟨hline, hrest⟩ := List.cons.inj e
    exact ⟨(codeLine_inj hp hp' (List.forall_mem_nil _) (List.forall_mem_nil _) hline).1, hrest⟩
  cases global <;> cases global'
  · exact ⟨rfl, hpart h⟩
  · exact absurd (List.cons.inj h).1.symm (hne hy hp)
  · exact absurd (List.cons.inj h).1 (hne hx hp')
  · exact ⟨rfl, hpart (List.cons.inj h).2⟩

end Platform

/-! ## Static variables -/

def Width.directive : Width → String
  | longword => ".long"
  | quadword => ".quad"

theorem Width.directive_injective : Function.Injective Width.directive := by
  intro w w' h
  cases w <;> cases w' <;> first | rfl | exact absurd h (by decide)

theorem Width.directive_ne_zero (w : Width) : w.directive ≠ ".zero" := by
  cases w <;> decide

theorem Width.size_injective : Function.Injective Width.size := by
  intro w w' h
  cases w <;> cases w' <;> first | rfl | cases h

namespace StaticVar

variable {p : Platform} {v w : StaticVar}

def part (v : StaticVar) : String := if v.init = 0 then ".bss" else ".data"

def directive (v : StaticVar) : String := if v.init = 0 then ".zero" else v.width.directive

/-- What stands behind that directive: the value, or how many bytes are zero. -/
def value (v : StaticVar) : String :=
  if v.init = 0 then toString v.width.size else toString v.init

/-- A static variable is its linkage line, its section, its alignment, its label and its value. -/
theorem staticLines_eq (p : Platform) (v : StaticVar) :
    p.staticLines v = p.globalLine v.global v.name ++ codeLine v.part [] ::
      [codeLine ".balign" [toString v.alignment], p.symbol v.name ++ ":",
        codeLine v.directive [v.value]] := by
  by_cases h : v.init = 0
  · simp [Platform.staticLines, part, directive, value, h]
  · cases hw : v.width <;>
      simp [Platform.staticLines, part, directive, value, Width.directive, h, hw]

theorem piece_part (v : StaticVar) : Piece v.part := by
  unfold part
  split <;> decide

theorem piece_directive (v : StaticVar) : Piece v.directive := by
  unfold directive
  split
  · decide
  · cases v.width <;> decide

theorem piece_value (v : StaticVar) : Piece v.value := by
  unfold value
  split
  · exact .of_nameChars (nameChars_repr _)
  · exact piece_toString _

/-- The last line of a static variable tells its value and its width. -/
theorem eq_of_value_eq (hd : v.directive = w.directive) (hv : v.value = w.value) :
    v.init = w.init ∧ v.width = w.width := by
  by_cases h : v.init = 0
  · by_cases h' : w.init = 0
    · rw [value, value, if_pos h, if_pos h'] at hv
      exact ⟨h.trans h'.symm, Width.size_injective (repr_inj hv)⟩
    · rw [directive, directive, if_pos h, if_neg h'] at hd
      exact absurd hd.symm w.width.directive_ne_zero
  · by_cases h' : w.init = 0
    · rw [directive, directive, if_neg h, if_pos h'] at hd
      exact absurd hd v.width.directive_ne_zero
    · rw [directive, directive, if_neg h, if_neg h'] at hd
      rw [value, value, if_neg h, if_neg h'] at hv
      exact ⟨toString_int_inj hv, Width.directive_injective hd⟩

/-- The lines of a static variable give back the variable. -/
theorem staticLines_inj (hv : NameChars v.name.toList) (hw : NameChars w.name.toList)
    (h : p.staticLines v = p.staticLines w) : v = w := by
  rw [staticLines_eq, staticLines_eq] at h
  obtain ⟨hglobal, -, h⟩ := Platform.globalLine_append_inj hv hw v.piece_part w.piece_part h
  obtain ⟨halign, h⟩ := List.cons.inj h
  obtain ⟨hlabel, h⟩ := List.cons.inj h
  have hnumber : ∀ n : Nat, ∀ x ∈ [toString n], Piece x :=
    fun n => List.forall_mem_singleton.2 (.of_nameChars (nameChars_repr n))
  have hvalue : ∀ u : StaticVar, ∀ x ∈ [u.value], Piece x :=
    fun u => List.forall_mem_singleton.2 u.piece_value
  have halignment := (codeLine_inj (by decide) (by decide) (hnumber _) (hnumber _) halign).2
  have hname := Program.symbol_injective p ((String.append_left_inj ":").1 hlabel)
  obtain ⟨hdirective, hvalues⟩ := codeLine_inj v.piece_directive w.piece_directive (hvalue v)
    (hvalue w) (List.cons.inj h).1
  obtain ⟨hinit, hwidth⟩ := eq_of_value_eq hdirective (List.cons.inj hvalues).1
  cases v
  cases w
  cases hname
  cases hglobal
  cases repr_inj (List.cons.inj halignment).1
  cases hinit
  cases hwidth
  rfl

/-- The lines of a static variable are one block, so no blank line stands among them. -/
theorem staticLines_block (hv : NameChars v.name.toList) : Block (p.staticLines v) := by
  rw [staticLines_eq]
  refine ⟨by simp, List.forall_mem_append.2 ⟨Platform.globalLine_written hv v.global, ?_⟩⟩
  simp only [List.forall_mem_cons, List.not_mem_nil, false_implies, implies_true, and_true]
  refine ⟨written_codeLine v.piece_part (List.forall_mem_nil _), written_codeLine (by decide) ?_,
    written_label (p.piece_symbol hv), written_codeLine v.piece_directive ?_⟩
  · exact List.forall_mem_singleton.2 (.of_nameChars (nameChars_repr v.alignment))
  · exact List.forall_mem_singleton.2 v.piece_value

end StaticVar

/-! ## Functions -/

structure Function.Spelled (f : Function) : Prop where
  name : NameChars f.name.toList
  instrs : ∀ i ∈ f.instrs, i.Spelled

instance (f : Function) : Decidable f.Spelled :=
  decidable_of_iff (NameChars f.name.toList ∧ ∀ i ∈ f.instrs, i.Spelled)
    ⟨fun h => ⟨h.1, h.2⟩, fun h => ⟨h.name, h.instrs⟩⟩

namespace Function

variable {p : Platform} {s : Symbols} {f g : Function} {lines : List String}

/-- A function that is written is its linkage line, its section, its label, the prologue and its
instructions. -/
theorem functionLines_eq_ok (h : p.functionLines s f = .ok lines) :
    ∃ body, p.instrsLines s f.instrs = .ok body ∧
      lines = p.globalLine f.global f.name ++ codeLine ".text" [] ::
        (p.symbol f.name ++ ":") :: codeLine "pushq" ["%rbp"] ::
          codeLine "movq" ["%rsp", "%rbp"] :: body := by
  obtain ⟨body, hbody, h⟩ := bind_eq_ok.1 h
  cases h
  exact ⟨body, hbody, by simp⟩

/-- The lines of a function give back the function. -/
theorem functionLines_inj (hf : f.Spelled) (hg : g.Spelled) (h : p.functionLines s f = .ok lines)
    (h' : p.functionLines s g = .ok lines) : f = g := by
  obtain ⟨body, hbody, rfl⟩ := functionLines_eq_ok h
  obtain ⟨body', hbody', hlines⟩ := functionLines_eq_ok h'
  obtain ⟨hglobal, -, hlines⟩ := Platform.globalLine_append_inj hf.name hg.name (by decide)
    (by decide) hlines
  obtain ⟨hlabel, hlines⟩ := List.cons.inj hlines
  have hname := Program.symbol_injective p ((String.append_left_inj ":").1 hlabel)
  have hbodies : body = body' := (List.cons.inj (List.cons.inj hlines).2).2
  rw [← hbodies] at hbody'
  have hinstrs := Platform.instrsLines_inj hf.instrs hg.instrs hbody hbody'
  cases f
  cases g
  cases hname
  cases hglobal
  cases hinstrs
  rfl

theorem functionLines_block (hf : f.Spelled) (h : p.functionLines s f = .ok lines) :
    Block lines := by
  obtain ⟨body, hbody, rfl⟩ := functionLines_eq_ok h
  refine ⟨by simp, List.forall_mem_append.2 ⟨Platform.globalLine_written hf.name f.global, ?_⟩⟩
  simp only [List.forall_mem_cons]
  exact ⟨written_codeLine (by decide) (by decide), written_label (p.piece_symbol hf.name),
    written_codeLine (by decide) (by decide), written_codeLine (by decide) (by decide),
    Platform.instrsLines_written hf.instrs hbody⟩

end Function

/-! ## Blocks -/

/-- Blocks are parted by one empty line. -/
theorem blockLines_eq (blocks : List (List String)) :
    blockLines blocks = [""].intercalate blocks := by
  induction blocks with
  | nil => rfl
  | cons b bs ih =>
      cases bs with
      | nil => simp [blockLines]
      | cons c cs =>
          rw [blockLines, ih, intercalate_cons_cons_eq, List.nil_append]
          simp

/-- Between blocks stand only blank lines. -/
theorem mem_blockLines {blocks : List (List String)} {line : String}
    (h : line ∈ blockLines blocks) : line = "" ∨ ∃ b ∈ blocks, line ∈ b := by
  induction blocks with
  | nil => cases h
  | cons b bs ih =>
      cases bs with
      | nil => exact .inr ⟨b, List.mem_cons_self, h⟩
      | cons c cs =>
          rcases List.mem_append.1 h with h | h
          · exact .inr ⟨b, List.mem_cons_self, h⟩
          · rcases List.mem_cons.1 h with h | h
            · exact .inl h
            · exact (ih h).imp_right fun ⟨b', hb', hline⟩ =>
                ⟨b', List.mem_cons_of_mem _ hb', hline⟩

/-- A text of blocks gives back the blocks. -/
theorem blocks_inj {bs cs : List (List String)} {e : Text.LineEnding} (hb : ∀ b ∈ bs, Block b)
    (hc : ∀ c ∈ cs, Block c) (h : e.unlines (blockLines bs) = e.unlines (blockLines cs)) :
    bs = cs := by
  have hunbroken : ∀ {ds : List (List String)}, (∀ d ∈ ds, Block d) →
      ∀ line ∈ blockLines ds, Unbroken line := by
    intro ds hd line hline
    rcases mem_blockLines hline with rfl | ⟨d, hmem, hline⟩
    · simp [Unbroken]
    · exact ((hd d hmem).written line hline).2
  have hblank : ∀ {ds : List (List String)}, (∀ d ∈ ds, Block d) → ∀ d ∈ ds, "" ∉ d :=
    fun hd d hmem hline => ((hd d hmem).written "" hline).1 rfl
  have hne : ∀ {ds : List (List String)}, (∀ d ∈ ds, Block d) → ds ≠ [[]] := by
    rintro _ hd rfl
    exact (hd [] (List.mem_singleton_self _)).nonempty rfl
  -- a single blank line would be two blocks that are empty
  have hsingle : ∀ {ds : List (List String)}, (∀ d ∈ ds, Block d) → blockLines ds ≠ [""] := by
    intro ds hd hds
    rw [blockLines_eq] at hds
    obtain rfl : ds = [[], []] := eq_of_intercalate_eq_of_ne (hblank hd) (by simp)
      (fun _ => by simp) (by simp) (show [""].intercalate ds = [""].intercalate [[], []] from hds)
    exact (hd [] List.mem_cons_self).nonempty rfl
  have hlines := Text.LineEnding.eq_of_unlines_eq (hunbroken hb) (hunbroken hc) (hsingle hb)
    (hsingle hc) h
  rw [blockLines_eq, blockLines_eq] at hlines
  exact eq_of_intercalate_eq_of_ne (hblank hb) (hblank hc) (fun _ => hne hc) (fun _ => hne hb)
    hlines

theorem note_block (p : Platform) : ∀ block ∈ p.note, Block block := by
  cases p with
  | macos => exact List.forall_mem_nil _
  | linux =>
      refine List.forall_mem_singleton.2 ⟨List.cons_ne_nil _ _, List.forall_mem_singleton.2 ?_⟩
      exact ⟨by decide, by decide, by decide⟩

/-! ## Programs -/

/-- A program whose names are made of letters, digits, underscores and dots, and whose operands are
never the stack pointer. -/
structure Program.Spelled (prog : Program) : Prop where
  statics : ∀ v ∈ prog.statics, NameChars v.name.toList
  functions : ∀ f ∈ prog.functions, f.Spelled

instance (prog : Program) : Decidable prog.Spelled :=
  decidable_of_iff
    ((∀ v ∈ prog.statics, NameChars v.name.toList) ∧ ∀ f ∈ prog.functions, f.Spelled)
    ⟨fun h => ⟨h.1, h.2⟩, fun h => ⟨h.statics, h.functions⟩⟩

/-- A block that switches to the text section, as that of a function does. -/
def IsCodeBlock (block : List String) : Prop := codeLine ".text" [] ∈ block

instance (block : List String) : Decidable (IsCodeBlock block) :=
  inferInstanceAs (Decidable (codeLine ".text" [] ∈ block))

/-- The block of a static variable never switches to the text section. -/
theorem not_isCodeBlock_staticLines {p : Platform} {v : StaticVar}
    (hv : NameChars v.name.toList) : ¬ IsCodeBlock (p.staticLines v) := by
  have hoperand : ∀ {m x : String}, Piece m → Piece x → codeLine ".text" [] ≠ codeLine m [x] := by
    intro m x hm hx h
    have hoperands := (codeLine_inj (by decide) hm (List.forall_mem_nil _)
      (List.forall_mem_singleton.2 hx) h).2
    cases hoperands
  have hglobal : codeLine ".text" [] ∉ p.globalLine v.global v.name := by
    cases v.global with
    | false => exact List.not_mem_nil
    | true => exact fun h => hoperand (by decide) (p.piece_symbol hv) (List.mem_singleton.1 h)
  have hpart : codeLine ".text" [] ≠ codeLine v.part [] := by
    unfold StaticVar.part
    split <;> decide
  rw [IsCodeBlock, StaticVar.staticLines_eq]
  simp only [List.mem_append, List.mem_cons, List.not_mem_nil, or_false, not_or]
  exact ⟨hglobal, hpart, hoperand (by decide) (.of_nameChars (nameChars_repr v.alignment)),
    Platform.codeLine_ne_label (p.piece_symbol hv), hoperand v.piece_directive v.piece_value⟩

theorem isCodeBlock_functionLines {p : Platform} {s : Symbols} {f : Function}
    {lines : List String} (h : p.functionLines s f = .ok lines) : IsCodeBlock lines := by
  obtain ⟨body, -, rfl⟩ := Function.functionLines_eq_ok h
  simp [IsCodeBlock]

def Function.WrittenAs (p : Platform) (s : Symbols) (f : Function) (block : List String) : Prop :=
  f.Spelled ∧ p.functionLines s f = .ok block

theorem Function.leftUnique_writtenAs (p : Platform) (s : Symbols) :
    Relator.LeftUnique (Function.WrittenAs p s) :=
  fun _ _ _ hf hg => functionLines_inj hf.1 hg.1 hf.2 hg.2

namespace Program

variable {p : Platform} {s : Symbols} {a b : Program} {e : Text.LineEnding} {text : String}

/-- The blocks of the functions stand between those of the static variables and the note. -/
theorem assembly_eq_ok (ha : a.Spelled) (h : a.assembly p s e = .ok text) :
    ∃ blocks, List.Forall₂ (Function.WrittenAs p s) a.functions blocks ∧
      text = e.unlines (blockLines (a.statics.map p.staticLines ++ blocks ++ p.note)) := by
  obtain ⟨all, hall, h⟩ := bind_eq_ok.1 h
  cases h
  obtain ⟨blocks, hblocks, hall⟩ := bind_eq_ok.1 hall
  cases hall
  exact ⟨blocks, (List.forall₂_and_left _ _).2 ⟨ha.functions, forall₂_of_mapM_eq_ok hblocks⟩, rfl⟩

/-- The assembly text of a program gives back its static variables and its functions. -/
theorem assembly_inj (ha : a.Spelled) (hb : b.Spelled) (h : a.assembly p s e = .ok text)
    (h' : b.assembly p s e = .ok text) : a.statics = b.statics ∧ a.functions = b.functions := by
  obtain ⟨as, has, rfl⟩ := assembly_eq_ok ha h
  obtain ⟨bs, hbs, htext⟩ := assembly_eq_ok hb h'
  have hcode : ∀ {fs : List Function} {cs : List (List String)},
      List.Forall₂ (Function.WrittenAs p s) fs cs → ∀ c ∈ cs, Block c ∧ IsCodeBlock c := by
    intro fs cs hcs c hc
    obtain ⟨f, -, hf, hlines⟩ := forall₂_exists_left hcs hc
    exact ⟨Function.functionLines_block hf hlines, isCodeBlock_functionLines hlines⟩
  have hblocks : ∀ {c : Program} {cs : List (List String)}, c.Spelled →
      List.Forall₂ (Function.WrittenAs p s) c.functions cs →
      ∀ block ∈ c.statics.map p.staticLines ++ cs ++ p.note, Block block := by
    intro c cs hc hcs
    refine List.forall_mem_append.2 ⟨List.forall_mem_append.2 ⟨?_, fun d hd => ?_⟩, note_block p⟩
    · exact List.forall_mem_map.2 fun v hv => StaticVar.staticLines_block (hc.statics v hv)
    · exact (hcode hcs d hd).1
  have hdata : ∀ {c : Program}, c.Spelled →
      ∀ block ∈ c.statics.map p.staticLines, ¬ IsCodeBlock block :=
    fun hc => List.forall_mem_map.2 fun v hv => not_isCodeBlock_staticLines (hc.statics v hv)
  have hhead : ∀ {fs : List Function} {cs : List (List String)},
      List.Forall₂ (Function.WrittenAs p s) fs cs → ∀ c ∈ cs.head?, ¬ ¬ IsCodeBlock c :=
    fun hcs c hc => not_not_intro (hcode hcs c (List.mem_of_head? hc)).2
  have hall := List.append_cancel_right (blocks_inj (hblocks ha has) (hblocks hb hbs) htext)
  obtain ⟨hstatics, hfunctions⟩ := append_inj_of_forall (hdata ha) (hdata hb) (hhead has)
    (hhead hbs) hall
  refine ⟨eq_of_map_eq (fun v hv w hw => ?_) hstatics, ?_⟩
  · exact StaticVar.staticLines_inj (ha.statics v hv) (hb.statics w hw)
  · rw [← hfunctions] at hbs
    exact List.left_unique_forall₂' (Function.leftUnique_writtenAs p s) has hbs

/-- A static variable and a function that uses it. -/
def counter : StaticVar := ⟨"count.0", false, 8, -3, .quadword⟩

def countFunction : Function :=
  ⟨"f", true, [.allocateStack 16, .mov .longword (.reg .di) (.stack (-4)),
    .binary .sub .quadword (.imm 1) (.data "count.0"), .cmp .quadword (.imm 0) (.data "count.0"),
    .jmpCC .g "end.1", .call "g", .label "end.1", .movsx (.stack (-4)) (.reg .ax), .ret]⟩

/-- Only the order of static variables and functions is lost. -/
theorem assembly_inj_counter :
    ∃ a b : Program, ∃ text, a ≠ b ∧ a.Spelled ∧ b.Spelled ∧
      a.assembly .linux [] .crlf = .ok text ∧ b.assembly .linux [] .crlf = .ok text ∧
      a.statics = b.statics ∧ a.functions = b.functions := by
  let a : Program := ⟨[.static counter, .function countFunction]⟩
  let b : Program := ⟨[.function countFunction, .static counter]⟩
  have ha : a.Spelled := by decide +kernel
  have hb : b.Spelled := by decide +kernel
  obtain ⟨text, h⟩ : ∃ text, a.assembly .linux [] .crlf = .ok text := ⟨_, rfl⟩
  have h' : b.assembly .linux [] .crlf = .ok text := h
  exact ⟨a, b, text, by decide, ha, hb, h, h', assembly_inj ha hb h h'⟩

/-! ## Texts -/

/-- What a text is compiled to has no names but words and names made of words, and no operand of it
is the stack pointer. -/
theorem spelled_of_text {text : String} {c : Compiled}
    (h : runStages text none = .ok (some c)) : c.machine.Spelled := by
  obtain ⟨ts, tree, q, t, code, hts, htree, hq, hcode, -, hm⟩ := runStages_eq_some h
  obtain ⟨r, hr, hq⟩ := bind_eq_ok.1 hq
  obtain ⟨l, hl, hq⟩ := bind_eq_ok.1 hq
  have hvalidated := IntegerC.Program.validated_of_text hts htree hr hl hq
  obtain ⟨fs, temps, hfinished⟩ := finished_of_stages hvalidated hcode hm
  have hnamed := hfinished.allNamed hvalidated
  have hcompiled := ((ofThreeAddress_compiled code.1 code.2).ok_of_eq hm).2
  refine ⟨fun v hv => (hnamed.statics v hv).nameChars, fun f hf => ?_⟩
  refine ⟨(hnamed.functions f hf).nameChars, fun i hi => ?_⟩
  obtain ⟨hmarks, hdata⟩ := hnamed.instrs f hf i hi
  refine ⟨fun m hm => (hmarks m hm).nameChars, ?_, ?_⟩
  · rintro _ hx name rfl
    exact (hdata name hx).nameChars
  · obtain ⟨top, htop, e⟩ := List.mem_filterMap.1 hf
    cases top with
    | function g =>
        cases e
        obtain ⟨f', -, layout, hcompiled⟩ := TopLevel.Related.exists_of_mem hcompiled htop
        exact (hcompiled.sparesStack i hi).sp_not_mem
    | static v => cases e

end Program

end IntegerC.Machine
