import IntegerC.Proofs.Machine.AssemblyReading

set_option autoImplicit false

/-! # Texts whose names are not spelled yet

The text of a program is fixed but for its names, which each platform spells in its own way. The
outline of a line has the fixed texts and the names one behind the other. So the text for a platform
is the outline of the program with the names spelled, and a program that cannot be written for one
platform cannot be written for the other.
-/

namespace IntegerC.Machine

/-! ## Names -/

/-- A name in a text, by what it stands for. -/
inductive Mention where
  | symbol (name : String)
  | label (name : String)
  | callee (name : String)

namespace Mention

def name : Mention → String
  | symbol x | label x | callee x => x

/-- How a name is spelled on Linux, where a function that is not known to be defined in the program
is called through the linkage table. -/
def onLinux (s : Symbols) : Mention → String
  | symbol x => x
  | label x => ".L" ++ x
  | callee x => if s.find? x = some (.function true) then x else x ++ "@PLT"

def onMacos : Mention → String
  | symbol x | callee x => "_" ++ x
  | label x => "L" ++ x

end Mention

namespace Platform

def spelling (s : Symbols) : Platform → Mention → String
  | linux => Mention.onLinux s
  | macos => Mention.onMacos

variable {p : Platform} {s : Symbols}

theorem isDefined_iff {x : String} : isDefined s x = true ↔ s.find? x = some (.function true) := by
  rw [isDefined]
  split
  · rename_i defined h
    simp [h]
  · rename_i h
    exact ⟨nofun, fun h' => absurd h' (h true)⟩

@[simp] theorem spelling_symbol (x : String) : p.spelling s (.symbol x) = p.symbol x := by
  cases p <;> rfl

@[simp] theorem spelling_label (x : String) : p.spelling s (.label x) = p.label x := by
  cases p <;> rfl

@[simp] theorem spelling_callee (x : String) : p.spelling s (.callee x) = p.callee s x := by
  cases p with
  | linux => simp [spelling, Mention.onLinux, callee, isDefined_iff]
  | macos => rfl

end Platform

/-! ## Lines -/

/-- A piece of a line: a text that is the same everywhere, or a name. -/
inductive Fragment where
  | fixed (text : String)
  | name (m : Mention)

namespace Fragment

def spelled (f : Mention → String) : Fragment → String
  | fixed text => text
  | name m => f m

def mention? : Fragment → Option Mention
  | fixed _ => none
  | name m => some m

/-- A fragment that ends no line, unless a name does. -/
def Unbroken : Fragment → Prop
  | fixed text => '\n' ∉ text.toList
  | name _ => True

end Fragment

/-- A line with names that are not spelled yet. -/
abbrev Outline := List Fragment

namespace Outline

def spelled (f : Mention → String) (l : Outline) : String :=
  String.join (l.map (Fragment.spelled f))

def mentions (l : Outline) : List Mention := l.filterMap Fragment.mention?

/-- A line that does not end early, unless in a name. -/
def Unbroken (l : Outline) : Prop := ∀ x ∈ l, x.Unbroken

def code (mnemonic : String) (operands : List Outline) : Outline :=
  match operands with
  | [] => [.fixed ("\t" ++ mnemonic)]
  | _ => .fixed ("\t" ++ mnemonic ++ "\t") :: [.fixed ", "].intercalate operands

def ofLabel (m : Mention) : Outline := [.name m, .fixed ":"]

variable {f : Mention → String}

theorem spelled_append (l l' : Outline) : spelled f (l ++ l') = spelled f l ++ spelled f l' := by
  rw [← String.toList_inj]
  simp [spelled]

theorem spelled_cons (x : Fragment) (l : Outline) :
    spelled f (x :: l) = x.spelled f ++ spelled f l := by
  rw [← String.toList_inj]
  simp [spelled]

/-- Spelling an outline spells its pieces, also those of the separator. -/
theorem spelled_intercalate (separator : Outline) (ls : List Outline) :
    spelled f (separator.intercalate ls) =
      (spelled f separator).intercalate (ls.map (spelled f)) := by
  induction ls with
  | nil => rfl
  | cons l ls ih =>
      cases ls with
      | nil => simp
      | cons l' ls =>
          rw [List.intercalate_cons_cons, spelled_append, spelled_append, ih]
          exact String.intercalate_cons_cons.symm

@[simp] theorem spelled_fixed (text : String) : spelled f [.fixed text] = text := by
  rw [← String.toList_inj]
  simp [spelled, Fragment.spelled]

@[simp] theorem spelled_name (m : Mention) : spelled f [.name m] = f m := by
  rw [← String.toList_inj]
  simp [spelled, Fragment.spelled]

theorem spelled_code (mnemonic : String) (operands : List Outline) :
    spelled f (code mnemonic operands) = codeLine mnemonic (operands.map (spelled f)) := by
  cases operands with
  | nil => exact spelled_fixed _
  | cons x xs =>
      rw [code, spelled_cons, spelled_intercalate, spelled_fixed]
      · rfl
      · simp

theorem spelled_ofLabel (m : Mention) : spelled f (ofLabel m) = f m ++ ":" := by
  rw [ofLabel, spelled_cons, spelled_fixed]
  rfl

end Outline

/-! ## Instructions -/

def Operand.outline (a : Access) : Operand → Except Fault Outline
  | imm n => .ok [.fixed ("$" ++ toString n)]
  | reg r => .ok [.fixed (r.text a)]
  | stack offset => .ok [.fixed (toString offset ++ "(%rbp)")]
  | data x => .ok [.name (.symbol x), .fixed "(%rip)"]
  | pseudo x => .error (Cause.unplacedName x).nowhere

def Field.outline : Field → Except Fault Outline
  | operand a x => x.outline a
  | label x => .ok [.name (.label x)]
  | callee x => .ok [.name (.callee x)]

def Instr.outline (i : Instr) : Except Fault (List Outline) :=
  match i.opcode?, i with
  | some o, _ => do return [.code o.mnemonic (← i.fields.mapM Field.outline)]
  | none, label x => .ok [.ofLabel (.label x)]
  | none, ret =>
      .ok [.code "movq" [[.fixed "%rbp"], [.fixed "%rsp"]], .code "popq" [[.fixed "%rbp"]],
        .code "ret" []]
  | none, _ => .error Cause.bareZeroExtension.nowhere

namespace Platform

variable {p : Platform} {s : Symbols}

/-- An operand is the spelling of its outline, on either platform, and fails where the outline
does. -/
theorem operand_outline (a : Access) (x : Operand) :
    p.operand a x = (x.outline a).map (Outline.spelled (p.spelling s)) := by
  cases x with
  | data x =>
      have hspelled : Outline.spelled (p.spelling s) [.name (.symbol x), .fixed "(%rip)"] =
          p.symbol x ++ "(%rip)" := by
        rw [Outline.spelled_cons, Outline.spelled_fixed, Fragment.spelled, spelling_symbol]
      exact congrArg Except.ok hspelled.symm
  | pseudo x => rfl
  | _ => exact congrArg Except.ok (Outline.spelled_fixed _).symm

theorem field_outline (f : Field) :
    f.text p s = f.outline.map (Outline.spelled (p.spelling s)) := by
  cases f with
  | operand a x => exact operand_outline a x
  | label x | callee x => simp [Field.text, Field.outline, Except.map]

/-- The lines of an instruction are its outline with the names spelled. -/
theorem instrLines_outline (i : Instr) :
    p.instrLines s i = i.outline.map (List.map (Outline.spelled (p.spelling s))) := by
  cases h : i.opcode? with
  | some o =>
      have houtline : i.outline = do return [.code o.mnemonic (← i.fields.mapM Field.outline)] := by
        unfold Instr.outline
        rw [h]
      rw [instrLines_eq_of_opcode h, houtline, funext (field_outline (p := p) (s := s)),
        mapM_map_eq]
      cases i.fields.mapM Field.outline with
      | error e => rfl
      | ok ls => simp [Except.map, bind, Except.bind, pure, Except.pure, Outline.spelled_code]
  | none =>
      cases i with
      | label x =>
          simp [instrLines, Instr.outline, Instr.opcode?, Except.map, Outline.spelled_ofLabel]
      | ret => simp [instrLines, Instr.outline, Instr.opcode?, Except.map, Outline.spelled_code]
      | movZeroExtend _ _ => rfl
      | _ => cases h

/-- The same for the instructions of a function. -/
theorem instrsLines_outline (is : List Instr) :
    p.instrsLines s is =
      (is.mapM Instr.outline).map fun ls => (ls.flatten).map (Outline.spelled (p.spelling s)) := by
  induction is with
  | nil => rfl
  | cons i is ih =>
      rw [instrsLines, ih, instrLines_outline, List.mapM_cons]
      cases i.outline with
      | error e => rfl
      | ok ls =>
          cases is.mapM Instr.outline with
          | error e => rfl
          | ok more => simp [Except.map, bind, Except.bind, pure, Except.pure]

end Platform

/-! ## Programs -/

/-- The outline of the line that shows a symbol to other units, if it is global. -/
def globalOutline (global : Bool) (x : String) : List Outline :=
  if global then [.code ".globl" [[.name (.symbol x)]]] else []

def StaticVar.outline (v : StaticVar) : List Outline :=
  globalOutline v.global v.name ++ .code v.part [] ::
    [.code ".balign" [[.fixed (toString v.alignment)]], .ofLabel (.symbol v.name),
      .code v.directive [[.fixed v.value]]]

def Function.outline (f : Function) : Except Fault (List Outline) := do
  let body ← f.instrs.mapM Instr.outline
  return globalOutline f.global f.name ++ .code ".text" [] :: .ofLabel (.symbol f.name) ::
    .code "pushq" [[.fixed "%rbp"]] :: .code "movq" [[.fixed "%rsp"], [.fixed "%rbp"]] ::
      body.flatten

/-- The outline of a program without the note, with a blank line between any two blocks. -/
def Program.outline (prog : Program) : Except Fault (List Outline) := do
  let functions ← prog.functions.mapM Function.outline
  return [[]].intercalate (prog.statics.map StaticVar.outline ++ functions)

section

variable {p : Platform} {s : Symbols}

theorem Platform.globalLine_outline (global : Bool) (x : String) :
    p.globalLine global x = (globalOutline global x).map (Outline.spelled (p.spelling s)) := by
  cases global with
  | false => rfl
  | true => simp [globalLine, globalOutline, Outline.spelled_code]

theorem StaticVar.staticLines_outline (v : StaticVar) :
    p.staticLines v = v.outline.map (Outline.spelled (p.spelling s)) := by
  rw [staticLines_eq, outline, List.map_append, ← Platform.globalLine_outline]
  simp [Outline.spelled_code, Outline.spelled_ofLabel]

/-- The lines of a function are the spelling of its outline, which does not know the platform. -/
theorem Function.functionLines_outline (f : Function) :
    p.functionLines s f = f.outline.map (List.map (Outline.spelled (p.spelling s))) := by
  rw [Platform.functionLines, Platform.instrsLines_outline, outline,
    Platform.globalLine_outline (s := s)]
  cases f.instrs.mapM Instr.outline with
  | error e => rfl
  | ok body =>
      simp [Except.map, bind, Except.bind, pure, Except.pure, Outline.spelled_code,
        Outline.spelled_ofLabel]

/-- The note behind the other lines of a text for Linux, with a blank line before it unless it
stands alone. -/
def noteBehind (lines : List Outline) : List String :=
  (if lines = [] then [] else [""]) ++ [codeLine ".section" [".note.GNU-stack,\"\",@progbits"]]

def Platform.linesBehind (lines : List Outline) : Platform → List String
  | linux => noteBehind lines
  | macos => []

theorem Platform.linesBehind_congr {lines lines' : List Outline} (h : lines ≠ [])
    (h' : lines' ≠ []) : p.linesBehind lines = p.linesBehind lines' := by
  cases p with
  | linux => rw [linesBehind, linesBehind, noteBehind, noteBehind, if_neg h, if_neg h']
  | macos => rfl

/-- Blocks with a blank line between any two, and the note behind them. -/
theorem blockLines_outline {blocks : List (List Outline)} (h : ∀ b ∈ blocks, b ≠ []) :
    blockLines (blocks.map (List.map (Outline.spelled (p.spelling s))) ++ p.note) =
      ([[]].intercalate blocks).map (Outline.spelled (p.spelling s)) ++
        p.linesBehind ([[]].intercalate blocks) := by
  induction blocks with
  | nil => cases p <;> rfl
  | cons b blocks ih =>
      obtain ⟨hb, hblocks⟩ := List.forall_mem_cons.1 h
      cases blocks with
      | nil => cases p <;> simp [Platform.note, Platform.linesBehind, noteBehind, blockLines, hb]
      | cons c cs =>
          obtain ⟨hc, -⟩ := List.forall_mem_cons.1 hblocks
          have hrest : ([[]] : List Outline).intercalate (c :: cs) ≠ [] := by
            cases cs <;> simp [List.intercalate_cons_cons, hc]
          have hall : ([[]] : List Outline).intercalate (b :: c :: cs) ≠ [] := by
            simp [List.intercalate_cons_cons]
          have hblank : Outline.spelled (p.spelling s) [] = "" := rfl
          rw [Platform.linesBehind_congr hall hrest, List.intercalate_cons_cons, List.map_append,
            List.append_assoc, ← ih hblocks]
          simp [blockLines, hblank]

theorem StaticVar.outline_ne_nil (v : StaticVar) : v.outline ≠ [] := by
  simp [outline]

theorem Function.outline_ne_nil {f : Function} {lines : List Outline} (h : f.outline = .ok lines) :
    lines ≠ [] := by
  obtain ⟨body, -, h⟩ := bind_eq_ok.1 h
  cases h
  simp

/-- A program is written as its outline with the names spelled, and the note. -/
theorem Program.assembly_outline (prog : Program) (e : Text.LineEnding) :
    prog.assembly p s e = prog.outline.map fun lines =>
      e.unlines (lines.map (Outline.spelled (p.spelling s)) ++ p.linesBehind lines) := by
  have hfunctions : prog.functions.mapM (p.functionLines s) =
      (prog.functions.mapM Function.outline).map
        (List.map (List.map (Outline.spelled (p.spelling s)))) := by
    rw [funext (Function.functionLines_outline (p := p) (s := s)), mapM_map_eq]
  have hstatics : prog.statics.map p.staticLines =
      (prog.statics.map StaticVar.outline).map (List.map (Outline.spelled (p.spelling s))) := by
    rw [List.map_map]
    exact List.map_congr_left fun v _ => v.staticLines_outline
  rw [assembly, blocks, outline, hfunctions]
  cases h : prog.functions.mapM Function.outline with
  | error e => rfl
  | ok fs =>
      have hne : ∀ b ∈ prog.statics.map StaticVar.outline ++ fs, b ≠ [] := by
        refine List.forall_mem_append.2
          ⟨List.forall_mem_map.2 fun v _ => v.outline_ne_nil, fun b hb => ?_⟩
        obtain ⟨f, -, hf⟩ := forall₂_exists_left (forall₂_of_mapM_eq_ok h) hb
        exact Function.outline_ne_nil hf
      have hblocks := blockLines_outline (p := p) (s := s) hne
      rw [List.map_append, ← hstatics] at hblocks
      exact congrArg (fun lines => Except.ok (e.unlines lines)) hblocks

end

end IntegerC.Machine
