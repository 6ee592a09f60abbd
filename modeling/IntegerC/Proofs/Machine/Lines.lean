import IntegerC.Proofs.Machine.Marks
import IntegerC.Proofs.Names

set_option autoImplicit false

/-! # Lines of assembly text

Every line of the text of a program is a line of code, a blank line, or a label: the name of a
function, of a static variable or of a place in the code, spelled for the platform, with a colon
behind it. Nothing in a line ends it early, since names are made of letters, digits, underscores and
dots.
-/

namespace IntegerC

namespace Machine

/-! ## Pieces of lines -/

/-- A text that ends neither a line nor a label. -/
def Inner (s : String) : Prop := ∀ c ∈ s.toList, c ≠ '\n' ∧ c ≠ '\r' ∧ c ≠ ':'

instance (s : String) : Decidable (Inner s) := List.decidableBAll _ s.toList

theorem Inner.append {s s' : String} (h : Inner s) (h' : Inner s') : Inner (s ++ s') := by
  intro c hc
  rw [String.toList_append] at hc
  exact (List.mem_append.1 hc).elim (h c) (h' c)

theorem inner_intercalate {separator : String} (hs : Inner separator) {parts : List String}
    (h : ∀ s ∈ parts, Inner s) : Inner (separator.intercalate parts) := by
  induction parts with
  | nil => exact fun c hc => by cases hc
  | cons s parts ih =>
      obtain ⟨hs', hparts⟩ := List.forall_mem_cons.1 h
      cases parts with
      | nil => simpa using hs'
      | cons s' parts =>
          rw [String.intercalate_cons_cons]
          exact (hs'.append hs).append (ih hparts)

theorem inner_of_isWordChar {s : String}
    (h : ∀ c ∈ s.toList, Text.isWordChar c = true ∨ c = '.') : Inner s := by
  intro c hc
  refine ⟨?_, ?_, ?_⟩ <;>
  · rintro rfl
    exact absurd (h _ hc) (by decide)

theorem inner_of_named {s : String} (h : Named s) : Inner s :=
  inner_of_isWordChar fun _ hc => h.mem_toList hc

theorem inner_repr (n : Nat) : Inner n.repr := by
  refine inner_of_isWordChar fun c hc => .inl ?_
  rw [Nat.toList_repr] at hc
  exact isWordChar_of_mem_toDigits hc

theorem inner_toString (n : Int) : Inner (toString n) := by
  cases n with
  | ofNat m => exact inner_repr m
  | negSucc m => exact Inner.append (by decide) (inner_repr (m + 1))

/-! ## Lines and their labels -/

def IsLabel (line : String) : Prop := line.toList.getLast? = some ':'

instance (line : String) : Decidable (IsLabel line) :=
  inferInstanceAs (Decidable (line.toList.getLast? = some ':'))

/-- Lines whose labels are `labels`, in this order, and that do not end early. -/
structure Lines (labels lines : List String) : Prop where
  labels : lines.filter (fun line => IsLabel line) = labels.map (· ++ ":")
  unbroken : ∀ line ∈ lines, '\n' ∉ line.toList ∧ '\r' ∉ line.toList

namespace Lines

variable {labels labels' lines lines' : List String}

theorem nil : Lines [] [] := ⟨rfl, by simp⟩

theorem append (h : Lines labels lines) (h' : Lines labels' lines') :
    Lines (labels ++ labels') (lines ++ lines') where
  labels := by rw [List.filter_append, h.labels, h'.labels, List.map_append]
  unbroken := List.forall_mem_append.2 ⟨h.unbroken, h'.unbroken⟩

theorem of_inner {line : String} (h : Inner line) : Lines [] [line] where
  labels := by
    refine List.filter_eq_nil_iff.2 fun line' hline => ?_
    obtain rfl := List.mem_singleton.1 hline
    intro hlabel
    have hlast : line'.toList.getLast? = some ':' := of_decide_eq_true hlabel
    exact (h _ (List.mem_of_getLast? hlast)).2.2 rfl
  unbroken := by
    rw [List.forall_mem_singleton]
    exact ⟨fun hc => (h _ hc).1 rfl, fun hc => (h _ hc).2.1 rfl⟩

theorem code {mnemonic : String} {operands : List String} (hm : Inner mnemonic)
    (ho : ∀ s ∈ operands, Inner s) : Lines [] [codeLine mnemonic operands] := by
  have htab : Inner "\t" := by decide
  refine of_inner ?_
  unfold codeLine
  split
  · exact htab.append hm
  · exact ((htab.append hm).append htab).append (inner_intercalate (by decide) ho)

/-- A label line defines its one name. -/
theorem label {name : String} (h : Inner name) : Lines [name] [name ++ ":"] where
  labels := by
    refine List.filter_eq_self.2 fun line hline => ?_
    obtain rfl := List.mem_singleton.1 hline
    simp [IsLabel]
  unbroken := by
    rw [List.forall_mem_singleton, String.toList_append, List.mem_append, List.mem_append]
    exact ⟨fun hc => hc.elim (fun hc => (h _ hc).1 rfl) (by decide),
      fun hc => hc.elim (fun hc => (h _ hc).2.1 rfl) (by decide)⟩

theorem cons {line : String} (h : Lines [] [line]) (h' : Lines labels lines) :
    Lines labels (line :: lines) :=
  h.append h'

end Lines

/-! ## Instructions -/

structure Instr.Named (i : Instr) : Prop where
  mark : ∀ m ∈ i.mark?, IntegerC.Named m.name
  data : ∀ x, .data x ∈ i.operands → IntegerC.Named x

namespace Platform

variable {p : Platform} {s : Symbols}

theorem inner_symbol (p : Platform) {x : String} (h : Named x) : Inner (p.symbol x) := by
  cases p with
  | linux => exact inner_of_named h
  | macos => exact Inner.append (by decide) (inner_of_named h)

theorem inner_label (p : Platform) {x : String} (h : Named x) : Inner (p.label x) := by
  cases p <;> exact Inner.append (by decide) (inner_of_named h)

theorem inner_callee (p : Platform) (s : Symbols) {x : String} (h : Named x) :
    Inner (p.callee s x) := by
  cases p with
  | linux =>
      unfold callee
      dsimp only
      split
      · exact inner_of_named h
      · exact (inner_of_named h).append (by decide)
  | macos => exact Inner.append (by decide) (inner_of_named h)

theorem inner_regText (r : Reg) (a : Access) : Inner (r.text a) := by
  revert r a
  intro r a
  cases r <;> cases a <;> decide

/-- An operand ends neither a line nor a label. -/
theorem operand_inner (a : Access) {x : Operand} (h : ∀ y, x = .data y → Named y) :
    Answers (p.operand a x) Inner := by
  cases x with
  | imm n =>
      have hn : Inner ("$" ++ toString n) := Inner.append (by decide) (inner_toString n)
      exact .pure hn
  | reg r => exact .pure (inner_regText r a)
  | stack offset =>
      have ho : Inner (toString offset ++ "(%rbp)") := (inner_toString offset).append (by decide)
      exact .pure ho
  | data y =>
      have hy : Inner (p.symbol y ++ "(%rip)") := (p.inner_symbol (h y rfl)).append (by decide)
      exact .pure hy
  | pseudo y => exact .error trivial

theorem unaryLine_lines {mnemonic : String} (hm : Inner mnemonic) (a : Access) {x : Operand}
    (h : ∀ y, x = .data y → Named y) : Answers (p.unaryLine mnemonic a x) (Lines []) :=
  (operand_inner a h).bind fun _ hx => .pure (.code hm (by simpa using hx))

theorem binaryLine_lines {mnemonic : String} (hm : Inner mnemonic) (a b : Access)
    {src dst : Operand} (hs : ∀ y, src = .data y → Named y) (hd : ∀ y, dst = .data y → Named y) :
    Answers (p.binaryLine mnemonic a b src dst) (Lines []) :=
  (operand_inner a hs).bind fun _ hs => (operand_inner b hd).bind fun _ hd =>
    .pure (.code hm (by simpa using ⟨hs, hd⟩))

/-- An instruction has one line with a label at most, that of the label which it is. -/
theorem instrLines_lines {i : Instr} (h : i.Named) :
    Answers (p.instrLines s i)
      (Lines ((i.mark?.bind Mark.label?).toList.map p.label)) := by
  obtain ⟨hmark, hdata⟩ := h
  -- a line has two operands at most, and the names in them are known to fit
  have htwo : ∀ src dst : Operand, i.operands = [src, dst] →
      (∀ y, src = .data y → Named y) ∧ ∀ y, dst = .data y → Named y := by
    intro src dst e
    rw [e] at hdata
    exact ⟨fun y hy => hdata y (by simp [hy]), fun y hy => hdata y (by simp [hy])⟩
  have hone : ∀ x : Operand, i.operands = [x] → ∀ y, x = .data y → Named y := by
    intro x e y hy
    exact hdata y (by simp [e, hy])
  cases i with
  | mov w src dst | cmp w src dst =>
      obtain ⟨hs, hd⟩ := htwo src dst rfl
      cases w <;> exact binaryLine_lines (by decide) _ _ hs hd
  | movsx src dst =>
      obtain ⟨hs, hd⟩ := htwo src dst rfl
      exact binaryLine_lines (by decide) _ _ hs hd
  | movZeroExtend src dst => exact .error trivial
  | unary op w x =>
      cases op <;> cases w <;> exact unaryLine_lines (by decide) _ (hone x rfl)
  | binary op w src dst =>
      obtain ⟨hs, hd⟩ := htwo src dst rfl
      cases op <;> cases w <;> exact binaryLine_lines (by decide) _ _ hs hd
  | idiv w x | div w x => cases w <;> exact unaryLine_lines (by decide) _ (hone x rfl)
  | setCC c x => cases c <;> exact unaryLine_lines (by decide) _ (hone x rfl)
  | push x => exact unaryLine_lines (by decide) _ (hone x rfl)
  | cdq w => cases w <;> exact .pure (.code (by decide) (by simp))
  | jmp l =>
      have hl : Inner (p.label l) := p.inner_label (hmark (.jump l) rfl)
      exact .pure (.code (by decide) (by simpa using hl))
  | jmpCC c l =>
      have hl : Inner (p.label l) := p.inner_label (hmark (.jump l) rfl)
      cases c <;> exact .pure (.code (by decide) (by simpa using hl))
  | label l => exact .pure (.label (p.inner_label (hmark (.label l) rfl)))
  | allocateStack n | deallocateStack n =>
      have hn : Inner ("$" ++ n.repr) := Inner.append (by decide) (inner_repr n)
      refine .pure (.code (by decide) ?_)
      exact List.forall_mem_cons.2 ⟨hn, by decide⟩
  | call f =>
      have hf : Inner (p.callee s f) := p.inner_callee s (hmark (.call f) rfl)
      exact .pure (.code (by decide) (by simpa using hf))
  | ret =>
      refine .pure ?_
      exact .cons (.code (by decide) (by decide)) (.cons (.code (by decide) (by decide))
        (.code (by decide) (by decide)))

/-- The labels of the lines come in the order of the instructions. -/
theorem instrsLines_lines (instrs : List Instr) (h : ∀ i ∈ instrs, i.Named) :
    Answers (p.instrsLines s instrs)
      (Lines (((marks instrs).filterMap Mark.label?).map p.label)) := by
  induction instrs with
  | nil => exact .pure .nil
  | cons i instrs ih =>
      obtain ⟨hi, hinstrs⟩ := List.forall_mem_cons.1 h
      refine (instrLines_lines hi).bind fun lines hl => (ih hinstrs).bind fun lines' hl' => .pure ?_
      have hlabels : (marks (i :: instrs)).filterMap Mark.label? =
          (i.mark?.bind Mark.label?).toList ++ (marks instrs).filterMap Mark.label? := by
        rw [marks_cons, List.filterMap_append]
        cases i.mark? with
        | none => rfl
        | some m => cases m <;> rfl
      rw [hlabels, List.map_append]
      exact hl.append hl'

/-! ## Blocks -/

theorem globalLine_lines (p : Platform) (global : Bool) {x : String} (h : Named x) :
    Lines [] (p.globalLine global x) := by
  unfold globalLine
  split
  · exact .code (by decide) (by simpa using p.inner_symbol h)
  · exact .nil

theorem staticLines_lines (p : Platform) {v : StaticVar} (h : Named v.name) :
    Lines [p.symbol v.name] (p.staticLines v) := by
  have hhead : ∀ part, Inner part → Lines [p.symbol v.name] (p.globalLine v.global v.name ++
      [codeLine part [], codeLine ".balign" [toString v.alignment], p.symbol v.name ++ ":"]) := by
    intro part hpart
    refine (p.globalLine_lines v.global h).append (.cons (.code hpart (by simp)) (.cons ?_ ?_))
    · exact .code (by decide) (by simpa using inner_repr v.alignment)
    · exact .label (p.inner_symbol h)
  have hvalue : ∀ directive value, Inner directive → Inner value →
      Lines [] [codeLine directive [value]] :=
    fun _ _ hd hv => .code hd (by simpa using hv)
  unfold staticLines
  split
  · exact (hhead _ (by decide)).append (hvalue _ _ (by decide) (inner_repr v.width.size))
  · split
    · exact (hhead _ (by decide)).append (hvalue _ _ (by decide) (inner_toString v.init))
    · exact (hhead _ (by decide)).append (hvalue _ _ (by decide) (inner_toString v.init))

/-- The labels of a function are its own name and those of places in its code. -/
def functionLabels (p : Platform) (f : Function) : List String :=
  p.symbol f.name :: ((marks f.instrs).filterMap Mark.label?).map p.label

/-- A function that is written defines its own name and its labels, each on a line of its own. -/
theorem functionLines_lines {f : Function} (hf : Named f.name) (h : ∀ i ∈ f.instrs, i.Named) :
    Answers (p.functionLines s f) (Lines (p.functionLabels f)) := by
  refine (instrsLines_lines f.instrs h).bind fun body hb => .pure ?_
  have hhead : Lines [p.symbol f.name] [codeLine ".text" [], p.symbol f.name ++ ":",
      codeLine "pushq" ["%rbp"], codeLine "movq" ["%rsp", "%rbp"]] := by
    refine .cons (.code (by decide) (by simp)) ?_
    refine (Lines.label (p.inner_symbol hf)).append (.cons ?_ ?_)
    · exact .code (by decide) (by decide)
    · exact .code (by decide) (by decide)
  exact ((p.globalLine_lines f.global hf).append hhead).append hb

theorem note_lines (p : Platform) : ∀ block ∈ p.note, Lines [] block := by
  cases p with
  | linux => exact List.forall_mem_singleton.2 (.code (by decide) (by decide))
  | macos => simp [note]

end Platform

/-! ## Programs -/

/-- Blocks written behind each other define the labels of all of them, in order. -/
theorem lines_blockLines {labels : List (List String)} {blocks : List (List String)}
    (h : List.Forall₂ Lines labels blocks) : Lines labels.flatten (blockLines blocks) := by
  induction h with
  | nil => exact .nil
  | @cons l b labels blocks hb hbs ih =>
      cases hbs with
      | nil => simpa [blockLines] using hb
      | cons _ _ =>
          have hblank : Lines [] [""] := .of_inner (by decide)
          exact hb.append (.cons hblank ih)

def Program.textLabels (prog : Program) (p : Platform) : List String :=
  prog.statics.map (fun v => p.symbol v.name) ++ prog.functions.flatMap p.functionLabels

/-- A program all of whose names are words or made of words. -/
structure Program.Named (prog : Program) : Prop where
  statics : ∀ v ∈ prog.statics, IntegerC.Named v.name
  functions : ∀ f ∈ prog.functions, IntegerC.Named f.name
  instrs : ∀ f ∈ prog.functions, ∀ i ∈ f.instrs, i.Named

/-- The labels in the text are those of the functions with their code and those of the static
variables. -/
theorem Program.blocks_lines {prog : Program} (h : prog.Named) (p : Platform) (s : Symbols) :
    Answers (prog.blocks p s) (fun blocks => Lines (prog.textLabels p) (blockLines blocks)) := by
  have hfunctions : List.Forall₂ (fun (labels : List String) f =>
      labels = p.functionLabels f ∧ IntegerC.Named f.name ∧ ∀ i ∈ f.instrs, i.Named)
      (prog.functions.map p.functionLabels) prog.functions := by
    rw [List.forall₂_map_left_iff, List.forall₂_same]
    exact fun f hf => ⟨rfl, h.functions f hf, h.instrs f hf⟩
  refine (mapM_forall₂ (Q := Lines) hfunctions fun labels f hf => ?_).bind
    fun blocks hblocks => .pure ?_
  · obtain ⟨rfl, hf, hi⟩ := hf
    exact Platform.functionLines_lines hf hi
  · have hstatics : List.Forall₂ Lines (prog.statics.map fun v => [p.symbol v.name])
        (prog.statics.map p.staticLines) := by
      rw [List.forall₂_map_left_iff, List.forall₂_map_right_iff, List.forall₂_same]
      exact fun v hv => p.staticLines_lines (h.statics v hv)
    have hnote : List.Forall₂ Lines (p.note.map fun _ => []) p.note := by
      rw [List.forall₂_map_left_iff, List.forall₂_same]
      exact p.note_lines
    have hall := lines_blockLines (List.rel_append (List.rel_append hstatics hblocks) hnote)
    have hlabels : ((prog.statics.map fun v : StaticVar => [p.symbol v.name]) ++
        prog.functions.map p.functionLabels ++ p.note.map fun _ => []).flatten =
          prog.textLabels p := by
      have hnothing : (p.note.map fun _ => ([] : List String)).flatten = [] := by
        cases p <;> rfl
      rw [textLabels, List.flatten_append, List.flatten_append, hnothing, List.append_nil,
        ← List.flatMap_def, ← List.flatMap_def, ← List.map_eq_flatMap]
    rwa [hlabels] at hall

end Machine

end IntegerC
