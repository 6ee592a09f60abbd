import IntegerC.Proofs.ThreeAddress.ListingLines

set_option autoImplicit false

/-! # Listings read back

The first line of a function and the line of a static variable give back what they say. The lines of
the code of a function are the only ones that begin with a blank, so a listing gives back the whole
program if its names and constants are legible.
-/

namespace IntegerC.ThreeAddress

open Text (Chunk NameChars cut Unbroken)

/-! ## Headers -/

/-- What a line is cut into that says of what kind something is and whether it is global. -/
def heading (global : Bool) (kind : String) (behind : List Chunk) : List Char × List Chunk :=
  if global then ("global".toList, word kind :: behind) else (kind.toList, behind)

/-- The words before a name tell the kind of a line, as no kind is called `global`. -/
theorem heading_inj {global global' : Bool} {kind kind' : String} {cs cs' : List Chunk}
    (hk : kind ≠ "global") (hk' : kind' ≠ "global")
    (h : heading global kind cs = heading global' kind' cs') :
    global = global' ∧ kind = kind' ∧ cs = cs' := by
  have hlist : ∀ {k : String}, "global".toList = k.toList → k = "global" :=
    fun e => (String.toList_inj.1 e).symm
  cases global <;> cases global'
  · obtain ⟨hkind, hcs⟩ := Prod.ext_iff.1 h
    exact ⟨rfl, String.toList_inj.1 hkind, hcs⟩
  · exact absurd (hlist (congrArg Prod.fst h).symm) hk
  · exact absurd (hlist (congrArg Prod.fst h)) hk'
  · obtain ⟨hkind, hcs⟩ := List.cons.inj (congrArg Prod.snd h)
    exact ⟨rfl, String.toList_inj.1 (congrArg Prod.snd hkind), hcs⟩

theorem cut_heading {kind : String} (hk : NameChars kind.toList) (global : Bool) (rest : String) :
    cut (globalWord global ++ kind ++ " " ++ rest).toList =
      heading global kind ((' ', (cut rest.toList).1) :: (cut rest.toList).2) := by
  cases global <;> simp (disch := decide) [globalWord, heading, hk.cut_append]

/-! ## Functions -/

/-- A function whose lines tell what it is. -/
structure Function.Legible (f : Function) : Prop where
  name : NameChars f.name.toList
  params : ∀ x ∈ f.params, IsName x
  body : ∀ i ∈ f.body, i.Legible

namespace Function

variable {f g : Function}

def header (f : Function) : String :=
  globalWord f.global ++ "function" ++ " " ++ (f.name ++ "(" ++ ", ".intercalate f.params ++ "):")

theorem lines_eq (f : Function) : f.lines = f.header :: f.body.map Instr.line := by
  have hheader : globalWord f.global ++ "function " ++ f.name ++ "(" ++
      ", ".intercalate f.params ++ "):" = f.header := by
    simp [header, ← String.toList_inj]
  rw [← hheader]
  rfl

/-- The header of a function cuts into its words in a fixed pattern. -/
theorem Legible.cut_header (h : f.Legible) : cut f.header.toList =
    heading f.global "function" (word f.name :: ('(', (listed (f.params.map String.toList)).1) ::
      ((listed (f.params.map String.toList)).2 ++ [mark ':'])) := by
  have hparams : ∀ x ∈ f.params.map String.toList, NameChars x := by
    rw [List.forall_mem_map]
    exact fun x hx => (h.params x hx).nameChars
  rw [header, cut_heading (by decide)]
  simp (disch := decide) [h.name.cut_append, cut_listed hparams]

/-- Name, linkage and parameters are chunks of the first line. -/
theorem Legible.header_inj (hf : f.Legible) (hg : g.Legible) (h : f.header = g.header) :
    f.name = g.name ∧ f.global = g.global ∧ f.params = g.params := by
  have hcut := hf.cut_header
  rw [h, hg.cut_header] at hcut
  obtain ⟨hglobal, -, hcut⟩ := heading_inj (by decide) (by decide) hcut
  obtain ⟨hname, hfirst, hrest⟩ : g.name = f.name ∧
      (listed (g.params.map String.toList)).1 = (listed (f.params.map String.toList)).1 ∧
      (listed (g.params.map String.toList)).2 = (listed (f.params.map String.toList)).2 := by
    simpa [String.toList_inj] using hcut
  have hparams := listed_inj (fun x hx => ?_) (fun y hy => ?_) (Prod.ext hfirst hrest)
  · have hinj : Function.Injective String.toList := fun _ _ => String.toList_inj.1
    exact ⟨hname.symm, hglobal.symm, (List.map_injective_iff.2 hinj hparams).symm⟩
  · obtain ⟨x', hx', rfl⟩ := List.mem_map.1 hx
    exact (hg.params x' hx').toList_ne_nil
  · obtain ⟨y', hy', rfl⟩ := List.mem_map.1 hy
    exact (hf.params y' hy').toList_ne_nil

end Function

/-! ## Static variables -/

namespace StaticVar

variable {v w : StaticVar}

/-- What the type of a static variable is cut into. -/
def typeWords : IntType → List Chunk
  | .int => [word "int"]
  | .unsignedInt => [word "unsigned", word "int"]
  | .long => [word "long"]
  | .unsignedLong => [word "unsigned", word "long"]

theorem cut_line (h : NameChars v.name.toList) : cut v.line.toList =
    heading v.global "static" (typeWords v.type ++ word v.name :: mark ' ' :: mark '=' ::
      (' ', (cut v.init.text.toList).1) :: (cut v.init.text.toList).2) := by
  have hline : v.line = globalWord v.global ++ "static" ++ " " ++
      (v.type.text ++ " " ++ v.name ++ " = " ++ v.init.text) := by
    have h : v.line = globalWord v.global ++ "static " ++ v.type.text ++ " " ++ v.name ++ " = " ++
      v.init.text := rfl
    simp [h, ← String.toList_inj]
  rw [hline, cut_heading (by decide)]
  cases v.type <;> simp (disch := decide) [IntType.text, typeWords, h.cut_append]

/-- The line of a static variable has its name, its linkage, its type and its value as chunks. -/
theorem line_inj (hv : NameChars v.name.toList) (hw : NameChars w.name.toList)
    (h : v.line = w.line) : v = w := by
  have hcut := cut_line hv
  rw [h, cut_line hw] at hcut
  obtain ⟨hglobal, -, hcut⟩ := heading_inj (by decide) (by decide) hcut
  have htype : w.type = v.type := by
    cases hτ : w.type <;> cases hσ : v.type <;> simp [hτ, hσ, typeWords] at hcut ⊢
  rw [htype] at hcut
  obtain ⟨hname, hinit⟩ : w.name = v.name ∧
      cut w.init.text.toList = cut v.init.text.toList := by
    simpa [String.toList_inj, Prod.ext_iff] using List.append_cancel_left hcut
  have hinit := Constant.text_inj (String.toList_inj.1 (Text.cut_injective hinit))
  cases v
  cases w
  cases hglobal
  cases htype
  cases hname
  cases hinit
  rfl

end StaticVar

/-! ## Lines of programs -/

/-- A function or a static variable whose lines tell what it is. -/
def TopLevel.Legible : TopLevel → Prop
  | function f => f.Legible
  | static v => NameChars v.name.toList

/-- The line of an instruction, and no other line, begins with a blank. -/
def IsCodeLine (line : String) : Prop := line.toList.head? = some ' '

instance (line : String) : Decidable (IsCodeLine line) :=
  inferInstanceAs (Decidable (line.toList.head? = some ' '))

theorem Instr.Legible.isCodeLine {i : Instr} (h : i.Legible) : IsCodeLine i.line := by
  have hspells := Text.cut_spells i.line.toList
  rw [Instr.cut_line h] at hspells
  have hfirst : ∃ w ps, i.chunks = (' ', w) :: ps := by cases i <;> exact ⟨_, _, rfl⟩
  obtain ⟨w, ps, hchunks⟩ := hfirst
  rw [IsCodeLine, ← hspells, hchunks]
  rfl

/-- The first line of something begins with the word for its kind, or with another word. -/
theorem not_isCodeLine_of_cut {line : String} {global : Bool} {kind : String} {cs : List Chunk}
    {c : Char} {rest : List Char} (h : cut line.toList = heading global kind cs)
    (hkind : kind.toList = c :: rest) (hc : c ≠ ' ') : ¬ IsCodeLine line ∧ line ≠ "" := by
  have hspells := Text.cut_spells line.toList
  rw [h] at hspells
  obtain ⟨d, hline, hd⟩ : ∃ d, line.toList.head? = some d ∧ d ≠ ' ' := by
    rw [← hspells]
    cases global with
    | true => exact ⟨'g', rfl, by decide⟩
    | false =>
        rw [heading, if_neg Bool.false_ne_true, hkind]
        exact ⟨c, rfl, hc⟩
  refine ⟨?_, ?_⟩
  · rw [IsCodeLine, hline]
    simpa using hd
  · rintro rfl
    cases hline

namespace TopLevel

variable {t u : TopLevel} {xs ys : List String}

/-- No line of code stands first. -/
def Ends (xs : List String) : Prop := ∀ line ∈ xs.head?, ¬ IsCodeLine line

/-- A listed part begins with a line that is neither empty nor a line of code. -/
theorem Legible.begins (h : t.Legible) :
    ∃ line rest, t.lines = line :: rest ∧ ¬ IsCodeLine line ∧ line ≠ "" := by
  cases t with
  | function f =>
      obtain ⟨hc, hne⟩ := not_isCodeLine_of_cut (Function.Legible.cut_header h)
        String.toList_ofList (by decide)
      exact ⟨_, _, f.lines_eq, hc, hne⟩
  | static v =>
      obtain ⟨hc, hne⟩ := not_isCodeLine_of_cut (StaticVar.cut_line h) String.toList_ofList
        (by decide)
      exact ⟨_, [], rfl, hc, hne⟩

/-- The code of a function is given back by its lines, with no line of code behind them. -/
theorem append_inj_of_code {code code' : List Instr} (hi : ∀ i ∈ code, i.Legible)
    (hj : ∀ j ∈ code', j.Legible) (hx : Ends xs) (hy : Ends ys)
    (h : code.map Instr.line ++ xs = code'.map Instr.line ++ ys) : code = code' ∧ xs = ys := by
  have hlines : ∀ {code : List Instr}, (∀ i ∈ code, i.Legible) →
      ∀ line ∈ code.map Instr.line, IsCodeLine line :=
    fun hcode => List.forall_mem_map.2 fun i hmem => (hcode i hmem).isCodeLine
  obtain ⟨hmap, hrest⟩ := append_inj_of_forall (hlines hi) (hlines hj) hx hy h
  exact ⟨eq_of_map_eq (fun i hmem j hmem' => (hi i hmem).line_inj (hj j hmem')) hmap, hrest⟩

/-- What the lines of a program begin with is given back by them. -/
theorem Legible.lines_append_inj (ht : t.Legible) (hu : u.Legible) (hx : Ends xs) (hy : Ends ys)
    (h : t.lines ++ xs = u.lines ++ ys) : t = u ∧ xs = ys := by
  cases t with
  | function f =>
      cases u with
      | function g =>
          rw [lines, lines, f.lines_eq, g.lines_eq] at h
          obtain ⟨hheader, hbodies⟩ := List.cons.inj h
          obtain ⟨hname, hglobal, hparams⟩ := Function.Legible.header_inj ht hu hheader
          -- the body ends where no line of code follows, which both listings agree on
          obtain ⟨hbody, hrest⟩ := append_inj_of_code ht.body hu.body hx hy hbodies
          cases f
          cases g
          cases hname
          cases hglobal
          cases hparams
          cases hbody
          exact ⟨rfl, hrest⟩
      | static w =>
          rw [lines, lines, f.lines_eq] at h
          have hcut := Function.Legible.cut_header ht
          rw [(List.cons.inj h).1, StaticVar.cut_line hu] at hcut
          exact absurd (heading_inj (by decide) (by decide) hcut).2.1 (by decide)
  | static v =>
      cases u with
      | function g =>
          rw [lines, lines, g.lines_eq] at h
          have hcut := Function.Legible.cut_header hu
          rw [← (List.cons.inj h).1, StaticVar.cut_line ht] at hcut
          exact absurd (heading_inj (by decide) (by decide) hcut).2.1 (by decide)
      | static w =>
          obtain ⟨hline, hrest⟩ := List.cons.inj h
          exact ⟨congrArg static (StaticVar.line_inj ht hu hline), hrest⟩

end TopLevel

/-- What is listed below a part does not go on with lines of code. -/
theorem ends_linesBelow {t : TopLevel} {ts : List TopLevel} (h : ∀ u ∈ ts, u.Legible) :
    TopLevel.Ends (linesBelow t ts) := by
  cases ts with
  | nil => simp [TopLevel.Ends, linesBelow]
  | cons u us =>
      obtain ⟨line, rest, hlines, hcode, -⟩ := (h u List.mem_cons_self).begins
      unfold TopLevel.Ends linesBelow
      split
      · simpa [hlines] using hcode
      · simp [IsCodeLine]

theorem linesBelow_cons_ne {t : TopLevel} (h : t.Legible) (previous : TopLevel)
    (ts : List TopLevel) : linesBelow previous (t :: ts) ≠ [] := by
  obtain ⟨line, rest, hlines, -⟩ := h.begins
  rw [linesBelow]
  split <;> simp [hlines]

/-- The lines below something give back what follows it. -/
theorem linesBelow_inj {ts us : List TopLevel} (ht : ∀ t ∈ ts, t.Legible)
    (hu : ∀ u ∈ us, u.Legible) {previous : TopLevel}
    (h : linesBelow previous ts = linesBelow previous us) : ts = us := by
  induction ts generalizing us previous with
  | nil =>
      cases us with
      | nil => rfl
      | cons u us => exact absurd h.symm (linesBelow_cons_ne (hu u List.mem_cons_self) previous us)
  | cons t ts ih =>
      obtain ⟨ht, hts⟩ := List.forall_mem_cons.1 ht
      cases us with
      | nil => exact absurd h (linesBelow_cons_ne ht previous ts)
      | cons u us =>
          obtain ⟨hu, hus⟩ := List.forall_mem_cons.1 hu
          obtain ⟨line, rest, htl, -, htne⟩ := ht.begins
          obtain ⟨line', rest', hul, -, hune⟩ := hu.begins
          -- either both follow a blank line, or both follow directly
          have hsame : t.lines ++ linesBelow t ts = u.lines ++ linesBelow u us := by
            rw [linesBelow, linesBelow] at h
            split at h <;> split at h
            · exact h
            · rw [htl] at h
              exact absurd (List.cons.inj h).1 htne
            · rw [hul] at h
              exact absurd (List.cons.inj h).1.symm hune
            · exact (List.cons.inj h).2
          obtain ⟨rfl, hrest⟩ := ht.lines_append_inj hu (ends_linesBelow hts)
            (ends_linesBelow hus) hsame
          rw [ih hts hus hrest]

/-! ## Programs -/

/-- No line of a definition has a line end in it, so lines can be told apart. -/
theorem TopLevel.Legible.unbroken {t : TopLevel} (h : t.Legible) :
    ∀ line ∈ t.lines, Unbroken line := by
  cases t with
  | function f =>
      have hlist : ∀ c ∉ [',', ' ', ')'], ∀ w, (c, w) ∉ (listed (f.params.map String.toList)).2 :=
        fun c hc w hmem => hc (mark_of_mem_listed hmem)
      rw [lines, f.lines_eq, List.forall_mem_cons, List.forall_mem_map]
      refine ⟨?_, fun i hi => (h.body i hi).unbroken⟩
      rw [Text.unbroken_iff_cut, Function.Legible.cut_header h]
      cases f.global <;>
        simpa [heading] using ⟨hlist '\n' (by decide), hlist '\r' (by decide)⟩
  | static v =>
      have hinit := Text.unbroken_iff_cut.1 v.init.unbroken_text
      rw [lines, List.forall_mem_singleton, Text.unbroken_iff_cut, StaticVar.cut_line h]
      cases v.global <;> cases v.type <;> simpa [heading, StaticVar.typeWords] using hinit

theorem mem_linesBelow {previous : TopLevel} {ts : List TopLevel} {line : String}
    (h : line ∈ linesBelow previous ts) : line = "" ∨ ∃ t ∈ ts, line ∈ t.lines := by
  induction ts generalizing previous with
  | nil => cases h
  | cons t ts ih =>
      rw [linesBelow, List.mem_append] at h
      rcases h with h | h
      · split at h
        · exact .inr ⟨t, List.mem_cons_self, h⟩
        · rcases List.mem_cons.1 h with h | h
          · exact .inl h
          · exact .inr ⟨t, List.mem_cons_self, h⟩
      · obtain h | ⟨u, hu, h⟩ := ih h
        · exact .inl h
        · exact .inr ⟨u, List.mem_cons_of_mem _ hu, h⟩

namespace Program

variable {p q : Program}

/-- A program whose listing tells what it is. -/
def Legible (p : Program) : Prop := ∀ t ∈ p.topLevels, t.Legible

theorem Legible.unbroken (h : p.Legible) : ∀ line ∈ p.lines, Unbroken line := by
  intro line hline
  obtain ⟨ts⟩ := p
  cases ts with
  | nil => cases hline
  | cons t ts =>
      obtain ⟨ht, hts⟩ := List.forall_mem_cons.1 h
      rcases List.mem_append.1 hline with hline | hline
      · exact ht.unbroken line hline
      · obtain rfl | ⟨u, hu, hline⟩ := mem_linesBelow hline
        · simp [Unbroken]
        · exact (hts u hu).unbroken line hline

theorem Legible.lines_ne (h : p.Legible) : p.lines ≠ [""] := by
  obtain ⟨ts⟩ := p
  cases ts with
  | nil => simp [lines]
  | cons t ts =>
      obtain ⟨line, rest, hl, -, hne⟩ := (h t List.mem_cons_self).begins
      simp [lines, hl, hne]

/-- A listing gives back the program. -/
theorem Legible.listing_inj (hp : p.Legible) (hq : q.Legible) {e : Text.LineEnding}
    (h : p.listing e = q.listing e) : p = q := by
  have hlines := Text.LineEnding.eq_of_unlines_eq hp.unbroken hq.unbroken hp.lines_ne hq.lines_ne h
  obtain ⟨ts⟩ := p
  obtain ⟨us⟩ := q
  cases ts with
  | nil =>
      cases us with
      | nil => rfl
      | cons u us =>
          obtain ⟨line, rest, hl, -⟩ := (hq u List.mem_cons_self).begins
          simp [lines, hl] at hlines
  | cons t ts =>
      obtain ⟨ht, hts⟩ := List.forall_mem_cons.1 hp
      cases us with
      | nil =>
          obtain ⟨line, rest, hl, -⟩ := ht.begins
          simp [lines, hl] at hlines
      | cons u us =>
          obtain ⟨hu, hus⟩ := List.forall_mem_cons.1 hq
          obtain ⟨rfl, hrest⟩ := ht.lines_append_inj hu (ends_linesBelow hts)
            (ends_linesBelow hus) hlines
          rw [linesBelow_inj hts hus hrest]

end Program

end IntegerC.ThreeAddress
