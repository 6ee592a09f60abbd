import IntegerC.Proofs.Machine.Outlines

set_option autoImplicit false

/-! # Texts for both platforms

The texts of a program for Linux and for macOS have the same outline, and all names of the program
stand in it as names, in the order of the program. So the texts differ in how names are spelled, and
in the note that only the one for Linux has. Nothing else but a name can end a line early, so the
line endings of a text are those between its lines.
-/

namespace IntegerC

/-! ## Line endings -/

namespace Text

/-- A text with a carriage return in front of every line feed. -/
def withReturns (text : String) : String :=
  .ofList (text.toList.flatMap fun c => if c = '\n' then ['\r', '\n'] else [c])

theorem withReturns_append (s t : String) :
    withReturns (s ++ t) = withReturns s ++ withReturns t := by
  rw [← String.toList_inj]
  simp [withReturns]

theorem withReturns_of_notMem {s : String} (h : '\n' ∉ s.toList) : withReturns s = s := by
  have hkeep : ∀ c ∈ s.toList, (if c = '\n' then ['\r', '\n'] else [c]) = [c] :=
    fun c hc => if_neg (by rintro rfl; exact h hc)
  rw [withReturns, List.flatMap_congr hkeep, List.flatMap_singleton', String.ofList_toList]

/-- Lines are written with the other line ending as they are with line feeds, if no line has a line
feed in it. -/
theorem LineEnding.unlines_crlf {lines : List String} (h : ∀ line ∈ lines, '\n' ∉ line.toList) :
    crlf.unlines lines = withReturns (lf.unlines lines) := by
  have hfeed : withReturns lf.text = crlf.text := by decide
  have hjoined : withReturns (lf.text.intercalate lines) = crlf.text.intercalate lines := by
    induction lines with
    | nil => rfl
    | cons line lines ih =>
        obtain ⟨hline, hlines⟩ := List.forall_mem_cons.1 h
        cases lines with
        | nil => simpa using withReturns_of_notMem hline
        | cons next lines =>
            rw [String.intercalate_cons_cons, String.intercalate_cons_cons, withReturns_append,
              withReturns_append, ih hlines, withReturns_of_notMem hline, hfeed]
  rw [unlines, unlines, withReturns_append, hjoined, hfeed]

end Text

namespace Machine

/-! ## Mentions -/

def Operand.mention? : Operand → Option Mention
  | data x => some (.symbol x)
  | _ => none

def Instr.mentions : Instr → List Mention
  | jmp x | jmpCC _ x | label x => [.label x]
  | call x => [.callee x]
  | i => i.operands.filterMap Operand.mention?

/-- The names in front of the code or the value of a symbol: its label, and the directive that shows
it to other units. -/
def headMentions (global : Bool) (x : String) : List Mention :=
  if global then [.symbol x, .symbol x] else [.symbol x]

def StaticVar.mentions (v : StaticVar) : List Mention := headMentions v.global v.name

def Function.mentions (f : Function) : List Mention :=
  headMentions f.global f.name ++ f.instrs.flatMap Instr.mentions

def Program.mentions (prog : Program) : List Mention :=
  prog.statics.flatMap StaticVar.mentions ++ prog.functions.flatMap Function.mentions

namespace Outline

variable {l l' : Outline}

@[simp] theorem mentions_append (l l' : Outline) : mentions (l ++ l') = mentions l ++ mentions l' :=
  List.filterMap_append ..

theorem mentions_intercalate {separator : Outline} (hs : mentions separator = [])
    (ls : List Outline) : mentions (separator.intercalate ls) = ls.flatMap mentions := by
  induction ls with
  | nil => rfl
  | cons l ls ih =>
      cases ls with
      | nil => simp
      | cons l' ls =>
          rw [List.intercalate_cons_cons, mentions_append, mentions_append, hs, ih, List.append_nil]
          rfl

theorem mentions_code (mnemonic : String) (operands : List Outline) :
    mentions (code mnemonic operands) = operands.flatMap mentions := by
  cases operands with
  | nil => rfl
  | cons x xs => exact mentions_intercalate rfl (x :: xs)

theorem unbroken_fixed {text : String} (h : '\n' ∉ text.toList) : Unbroken [.fixed text] :=
  List.forall_mem_singleton.2 h

theorem unbroken_intercalate {separator : Outline} (hs : separator.Unbroken) {ls : List Outline}
    (h : ∀ l ∈ ls, Unbroken l) : Unbroken (separator.intercalate ls) := by
  induction ls with
  | nil => exact List.forall_mem_nil _
  | cons l ls ih =>
      obtain ⟨hl, hls⟩ := List.forall_mem_cons.1 h
      cases ls with
      | nil => simpa using hl
      | cons l' ls =>
          rw [List.intercalate_cons_cons]
          exact List.forall_mem_append.2 ⟨List.forall_mem_append.2 ⟨hl, hs⟩, ih hls⟩

theorem unbroken_code {mnemonic : String} {operands : List Outline} (hm : Piece mnemonic)
    (ho : ∀ l ∈ operands, Unbroken l) : Unbroken (code mnemonic operands) := by
  have hfeed : '\n' ∉ mnemonic.toList := hm.notMem (by decide)
  have hcomma : Unbroken [.fixed ", "] := unbroken_fixed (by decide)
  cases operands with
  | nil => exact unbroken_fixed (by simpa using hfeed)
  | cons x xs =>
      refine List.forall_mem_cons.2 ⟨?_, unbroken_intercalate hcomma ho⟩
      simpa [Fragment.Unbroken] using hfeed

/-- Where the names do not end the line, nothing does. -/
theorem feed_notMem_spelled {f : Mention → String} (h : Unbroken l)
    (hf : ∀ m ∈ mentions l, '\n' ∉ (f m).toList) : '\n' ∉ (spelled f l).toList := by
  induction l with
  | nil => exact List.not_mem_nil
  | cons x l ih =>
      obtain ⟨hx, hl⟩ := List.forall_mem_cons.1 h
      rw [spelled_cons, String.toList_append, List.mem_append, not_or]
      cases x with
      | fixed text => exact ⟨hx, ih hl hf⟩
      | name m =>
          obtain ⟨hm, hms⟩ := List.forall_mem_cons.1 (show ∀ m' ∈ m :: mentions l, _ from hf)
          exact ⟨hm, ih hl hms⟩

end Outline

/-- Lines that have the names `ms` in them, in this order, and end early at most in a name. -/
structure Outlined (ms : List Mention) (lines : List Outline) : Prop where
  mentions : lines.flatMap Outline.mentions = ms
  unbroken : ∀ line ∈ lines, Outline.Unbroken line

namespace Outlined

variable {ms ms' : List Mention} {lines lines' : List Outline}

theorem nil : Outlined [] [] := ⟨rfl, List.forall_mem_nil _⟩

theorem append (h : Outlined ms lines) (h' : Outlined ms' lines') :
    Outlined (ms ++ ms') (lines ++ lines') where
  mentions := by rw [List.flatMap_append, h.mentions, h'.mentions]
  unbroken := List.forall_mem_append.2 ⟨h.unbroken, h'.unbroken⟩

theorem cons {line : Outline} (h : Outlined ms [line]) (h' : Outlined ms' lines) :
    Outlined (ms ++ ms') (line :: lines) :=
  h.append h'

theorem blank : Outlined [] [[]] := ⟨rfl, List.forall_mem_singleton.2 (List.forall_mem_nil _)⟩

theorem code {mnemonic : String} {operands : List Outline} (hm : Piece mnemonic)
    (ho : ∀ l ∈ operands, Outline.Unbroken l) :
    Outlined (operands.flatMap Outline.mentions) [.code mnemonic operands] where
  mentions := by rw [List.flatMap_singleton, Outline.mentions_code]
  unbroken := List.forall_mem_singleton.2 (Outline.unbroken_code hm ho)

/-- A line of code without names. -/
theorem plain {mnemonic : String} (hm : Piece mnemonic) (texts : List String)
    (ht : ∀ t ∈ texts, Piece t) :
    Outlined [] [.code mnemonic (texts.map fun t => [.fixed t])] := by
  have hnone : (texts.map fun t => [Fragment.fixed t]).flatMap Outline.mentions = [] := by
    simp [Outline.mentions, Fragment.mention?]
  rw [← hnone]
  refine code hm (List.forall_mem_map.2 fun t hmem => ?_)
  exact Outline.unbroken_fixed ((ht t hmem).notMem (by decide))

theorem label (m : Mention) : Outlined [m] [.ofLabel m] where
  mentions := rfl
  unbroken := List.forall_mem_singleton.2
    (List.forall_mem_cons.2 ⟨trivial, Outline.unbroken_fixed (by decide)⟩)

theorem flatten {mss : List (List Mention)} {blocks : List (List Outline)}
    (h : List.Forall₂ Outlined mss blocks) : Outlined mss.flatten blocks.flatten := by
  induction h with
  | nil => exact nil
  | cons hb _ ih => exact hb.append ih

/-- The same with a blank line between any two blocks. -/
theorem intercalate {mss : List (List Mention)} {blocks : List (List Outline)}
    (h : List.Forall₂ Outlined mss blocks) : Outlined mss.flatten ([[]].intercalate blocks) := by
  induction h with
  | nil => exact nil
  | @cons ms b mss blocks hb hbs ih =>
      cases hbs with
      | nil => simpa using hb
      | cons _ _ =>
          rw [List.intercalate_cons_cons, List.append_assoc]
          exact hb.append (blank.append ih)

end Outlined

/-! ## Outlines of programs -/

def Field.mention? : Field → Option Mention
  | operand _ x => x.mention?
  | label x => some (.label x)
  | callee x => some (.callee x)

/-- The outline of an operand mentions its name, if it has one, and ends no line. -/
theorem Operand.outline_eq_ok {a : Access} {x : Operand} {l : Outline}
    (h : x.outline a = .ok l) : l.mentions = x.mention?.toList ∧ l.Unbroken := by
  have hfixed : ∀ {t : String}, Piece t →
      Outline.mentions [.fixed t] = [] ∧ Outline.Unbroken [.fixed t] :=
    fun ht => ⟨rfl, Outline.unbroken_fixed (ht.notMem (by decide))⟩
  cases x with
  | imm n =>
      cases h
      exact hfixed (Piece.append (by decide) (piece_toString n))
  | reg r =>
      cases h
      exact hfixed (r.piece_text a)
  | stack offset =>
      cases h
      exact hfixed ((piece_toString offset).append (by decide))
  | data x =>
      cases h
      exact ⟨rfl, List.forall_mem_cons.2 ⟨trivial, Outline.unbroken_fixed (by decide)⟩⟩
  | pseudo x => cases h

theorem Field.outline_eq_ok {f : Field} {l : Outline} (h : f.outline = .ok l) :
    l.mentions = f.mention?.toList ∧ l.Unbroken := by
  cases f with
  | operand a x => exact Operand.outline_eq_ok h
  | label x | callee x =>
      cases h
      exact ⟨rfl, List.forall_mem_singleton.2 trivial⟩

/-- The mentions in the outlines of fields are those of the fields, in order. -/
theorem Field.mentions_outlines {fs : List Field} {ls : List Outline}
    (h : List.Forall₂ (fun f l => f.outline = .ok l) fs ls) :
    ls.flatMap Outline.mentions = fs.filterMap Field.mention? := by
  induction h with
  | nil => rfl
  | @cons f l fs ls hf _ ih =>
      rw [List.flatMap_cons, (Field.outline_eq_ok hf).1, ih, List.filterMap_cons]
      cases f.mention? <;> rfl

/-- Behind the mnemonic of an instruction stand all its names. -/
theorem Instr.mentions_fields {i : Instr} {o : Opcode} (h : i.opcode? = some o) :
    i.fields.filterMap Field.mention? = i.mentions := by
  cases i with
  | movZeroExtend _ _ | label _ | ret => cases h
  | _ => rfl

/-- An instruction mentions the same names in its lines as in its operands. -/
theorem Instr.outlined {i : Instr} {lines : List Outline} (h : i.outline = .ok lines) :
    Outlined i.mentions lines := by
  unfold outline at h
  split at h
  · rename_i o ho
    obtain ⟨ls, hls, h⟩ := bind_eq_ok.1 h
    cases h
    have hfields := forall₂_of_mapM_eq_ok hls
    rw [← mentions_fields ho, ← Field.mentions_outlines hfields]
    refine .code o.piece_mnemonic fun l hl => ?_
    obtain ⟨f, -, hf⟩ := forall₂_exists_left hfields hl
    exact (Field.outline_eq_ok hf).2
  · cases h
    exact .label _
  · cases h
    exact .cons (.plain (by decide) ["%rbp", "%rsp"] (by decide))
      (.cons (.plain (by decide) ["%rbp"] (by decide)) (.plain (by decide) [] (by decide)))
  · cases h

theorem outlined_globalOutline (global : Bool) (x : String) :
    Outlined (if global then [.symbol x] else []) (globalOutline global x) := by
  cases global with
  | false => exact .nil
  | true =>
      have hname : Outline.Unbroken [.name (.symbol x)] := List.forall_mem_singleton.2 trivial
      exact .code (by decide) (List.forall_mem_singleton.2 hname)

theorem headMentions_eq (global : Bool) (x : String) :
    headMentions global x = (if global then [.symbol x] else []) ++ [.symbol x] := by
  cases global <;> rfl

theorem StaticVar.outlined (v : StaticVar) : Outlined v.mentions v.outline := by
  have hnumber : ∀ t ∈ [toString v.alignment], Piece t :=
    List.forall_mem_singleton.2 (.of_nameChars (nameChars_repr v.alignment))
  have hvalue : ∀ t ∈ [v.value], Piece t := List.forall_mem_singleton.2 v.piece_value
  rw [mentions, headMentions_eq]
  refine (outlined_globalOutline _ _).append ?_
  exact .cons (.plain v.piece_part [] (by decide)) (.cons (.plain (by decide) _ hnumber)
    (.cons (.label _) (.plain v.piece_directive _ hvalue)))

theorem Function.outlined {f : Function} {lines : List Outline} (h : f.outline = .ok lines) :
    Outlined f.mentions lines := by
  obtain ⟨body, hbody, h⟩ := bind_eq_ok.1 h
  cases h
  have hinstrs : List.Forall₂ Outlined (f.instrs.map Instr.mentions) body := by
    rw [List.forall₂_map_left_iff]
    exact (forall₂_of_mapM_eq_ok hbody).imp fun _ _ => Instr.outlined
  have hframe : Outlined [.symbol f.name] [.code ".text" [], .ofLabel (.symbol f.name),
      .code "pushq" [[.fixed "%rbp"]], .code "movq" [[.fixed "%rsp"], [.fixed "%rbp"]]] :=
    .cons (.plain (by decide) [] (by decide)) (.cons (.label _)
      (.cons (.plain (by decide) ["%rbp"] (by decide))
        (.plain (by decide) ["%rsp", "%rbp"] (by decide))))
  rw [mentions, headMentions_eq, List.append_assoc, List.flatMap_def]
  exact (outlined_globalOutline _ _).append (hframe.append (.flatten hinstrs))

/-- The blank lines between blocks mention nothing. -/
theorem Program.outlined {prog : Program} {lines : List Outline} (h : prog.outline = .ok lines) :
    Outlined prog.mentions lines := by
  obtain ⟨fs, hfs, h⟩ := bind_eq_ok.1 h
  cases h
  have hstatics : List.Forall₂ Outlined (prog.statics.map StaticVar.mentions)
      (prog.statics.map StaticVar.outline) := by
    rw [List.forall₂_map_left_iff, List.forall₂_map_right_iff, List.forall₂_same]
    exact fun v _ => v.outlined
  have hfunctions : List.Forall₂ Outlined (prog.functions.map Function.mentions) fs := by
    rw [List.forall₂_map_left_iff]
    exact (forall₂_of_mapM_eq_ok hfs).imp fun _ _ => Function.outlined
  have hall := Outlined.intercalate (List.rel_append hstatics hfunctions)
  rwa [List.flatten_append, ← List.flatMap_def, ← List.flatMap_def] at hall

/-! ## Platforms -/

/-- No platform spells a name with a line feed that is not in the name. -/
theorem Platform.feed_notMem_spelling (p : Platform) (s : Symbols) {m : Mention}
    (h : '\n' ∉ m.name.toList) : '\n' ∉ (p.spelling s m).toList := by
  have happend : ∀ {t u : String}, '\n' ∉ t.toList → '\n' ∉ u.toList → '\n' ∉ (t ++ u).toList := by
    intro t u ht hu
    rw [String.toList_append, List.mem_append, not_or]
    exact ⟨ht, hu⟩
  cases p with
  | linux =>
      cases m with
      | symbol x => exact h
      | label x => exact happend (by decide) h
      | callee x =>
          rw [spelling, Mention.onLinux]
          split
          · exact h
          · exact happend h (by decide)
  | macos => cases m <;> exact happend (by decide) h

/-- No line behind the others has a line feed in it. -/
theorem Platform.feed_notMem_linesBehind (p : Platform) (lines : List Outline) :
    ∀ line ∈ p.linesBehind lines, '\n' ∉ line.toList := by
  cases p with
  | macos => exact List.forall_mem_nil _
  | linux =>
      rw [linesBehind, noteBehind]
      refine List.forall_mem_append.2 ⟨?_, List.forall_mem_singleton.2 (by decide)⟩
      split
      · exact List.forall_mem_nil _
      · exact List.forall_mem_singleton.2 (by decide)

namespace Program

/-- A program cannot be written for either platform, or its texts differ in how the names in its
lines are spelled and in the note. Line endings stand between lines only, unless a name has one. -/
theorem assembly_spelled (prog : Program) (s : Symbols) :
    ((∃ fault, ∀ e, prog.assembly .linux s e = .error fault ∧
        prog.assembly .macos s e = .error fault) ∨
      ∃ lines, Outlined prog.mentions lines ∧ ∀ e,
        prog.assembly .linux s e = .ok (e.unlines
          (lines.map (Outline.spelled (Mention.onLinux s)) ++ noteBehind lines)) ∧
        prog.assembly .macos s e = .ok (e.unlines (lines.map (Outline.spelled Mention.onMacos)))) ∧
    ((∀ m ∈ prog.mentions, '\n' ∉ m.name.toList) → ∀ p,
      prog.assembly p s .crlf = (prog.assembly p s .lf).map Text.withReturns) := by
  -- both platforms spell the same outline, and Linux has a note behind it
  have hassembly : ∀ p e, prog.assembly p s e = prog.outline.map fun lines =>
      e.unlines (lines.map (Outline.spelled (p.spelling s)) ++ p.linesBehind lines) :=
    fun p e => prog.assembly_outline e
  cases h : prog.outline with
  | error fault =>
      simp only [h] at hassembly
      exact ⟨.inl ⟨fault, fun e => ⟨hassembly .linux e, hassembly .macos e⟩⟩,
        fun _ p => by rw [hassembly, hassembly]; rfl⟩
  | ok lines =>
      simp only [h] at hassembly
      have houtlined := outlined h
      refine ⟨.inr ⟨lines, houtlined, fun e => ⟨?_, ?_⟩⟩, fun hnames p => ?_⟩
      · exact hassembly .linux e
      · exact (hassembly .macos e).trans (congrArg _ (congrArg _ (List.append_nil _)))
      · rw [hassembly, hassembly]
        refine congrArg Except.ok (Text.LineEnding.unlines_crlf ?_)
        refine List.forall_mem_append.2 ⟨List.forall_mem_map.2 fun l hl => ?_,
          p.feed_notMem_linesBehind lines⟩
        refine Outline.feed_notMem_spelled (houtlined.unbroken l hl) fun m hm => ?_
        refine p.feed_notMem_spelling s (hnames m ?_)
        rw [← houtlined.mentions]
        exact List.mem_flatMap.2 ⟨l, hl, hm⟩

/-- A static variable, and a function that calls itself and a function from elsewhere. -/
def tally : StaticVar := ⟨"n.0", false, 4, 0, .longword⟩

def tallyFunction : Function :=
  ⟨"f", true, [.label "next.0", .call "g", .mov .longword (.reg .ax) (.data "n.0"),
    .jmpCC .ne "next.0", .call "f", .ret]⟩

/-- The names of generated code have no line feeds in them. -/
theorem assembly_spelled_tally :
    let prog : Program := ⟨[.function tallyFunction, .static tally]⟩
    let s : Symbols := [("f", .function true), ("g", .function false)]
    (∀ m ∈ prog.mentions, '\n' ∉ m.name.toList) ∧
      ∀ p, prog.assembly p s .crlf = (prog.assembly p s .lf).map Text.withReturns := by
  have hnames : ∀ m ∈ (Program.mk [.function tallyFunction, .static tally]).mentions,
      '\n' ∉ m.name.toList := by
    decide +kernel
  exact ⟨hnames, (assembly_spelled _ _).2 hnames⟩

end Program

end Machine

end IntegerC
