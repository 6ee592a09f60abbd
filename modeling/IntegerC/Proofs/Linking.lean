import IntegerC.Proofs.Compilation
import IntegerC.Proofs.Machine.Lines
import IntegerC.Proofs.ThreeAddress.FunctionLinks

set_option autoImplicit false

/-! # Programs that link

The program that is made of a text is closed. Every jump has its place in the same function, names
are defined once, and what is used without being defined is a function of the symbol table or an
object that all declarations leave to other units. So no label stands twice in its text, on whatever
platform: names of the source, unique names, labels of loops and other labels, and the spellings of
the platforms cannot meet.
-/

namespace IntegerC

/-! ## Tables -/

/-- In a table whose names are different an entry is found under its name. -/
theorem Table.find?_of_mem {α : Type} {t : Table α} (hn : t.names.Nodup) {x : String} {a : α}
    (h : (x, a) ∈ t) : t.find? x = some a := by
  induction t with
  | nil => cases h
  | cons e t ih =>
      obtain ⟨n, b⟩ := e
      obtain ⟨hn', hn⟩ := List.nodup_cons.1 hn
      rw [find?_cons]
      rcases List.mem_cons.1 h with h | h
      · cases h
        exact if_pos rfl
      · have hmem : x ∈ names t := List.mem_map_of_mem (f := Prod.fst) h
        have hne : n ≠ x := fun e => hn' (e ▸ hmem)
        rw [if_neg hne]
        exact ih hn h

theorem Machine.Symbols.find?_of_ofTable {t : SymbolTable} (hn : t.names.Nodup) {x : String}
    {m : Symbol} (h : (Symbols.ofTable t).find? x = some m) :
    ∃ s, t.find? x = some s ∧ Symbol.ofSymbol? s = some m := by
  obtain ⟨⟨y, s⟩, hmem, hs⟩ := List.mem_filterMap.1 (Table.mem_of_find?_eq_some h)
  obtain ⟨m', hm, e⟩ := Option.map_eq_some_iff.1 hs
  cases e
  exact ⟨s, Table.find?_of_mem hn hmem, hm⟩

namespace ThreeAddress

variable {t : SymbolTable} {temps : Table IntType} {x : String} {s : Symbol}

/-- An entry that is not that of an automatic variable is not that of a temporary. -/
theorem find?_of_append_entries (h : Table.find? (t ++ entries temps) x = some s)
    (hs : ∀ τ, s ≠ .automatic τ) : t.find? x = some s := by
  rw [Table.find?_append] at h
  cases ht : t.find? x with
  | some s' =>
      rw [ht] at h
      exact h
  | none =>
      rw [ht, Option.none_or] at h
      obtain ⟨e, -, he⟩ := List.mem_map.1 (Table.mem_of_find?_eq_some h)
      exact absurd (congrArg Prod.snd he).symm (hs e.2)

theorem nodup_append_entries (hn : t.names.Nodup) (htemps : temps.names.Nodup)
    (hnew : ∀ x ∈ temps.names, ¬ t.Knows x) : (Table.names (t ++ entries temps)).Nodup := by
  rw [names_append, names_entries]
  refine List.nodup_append.2 ⟨hn, htemps, ?_⟩
  rintro y hy _ hy' rfl
  exact hnew y hy' (SymbolTable.knows_iff_mem_names.2 hy)

/-- The static variables of a table are those objects of it that have storage. -/
theorem mem_staticVars {v : StaticVar} :
    v ∈ staticVars t ↔ ∃ e ∈ t, StaticVar.ofSymbol? e.1 e.2 = some v := by
  rw [staticVars, List.mem_filterMap]

theorem StaticVar.exists_static {v : StaticVar} (h : ofSymbol? x s = some v) :
    v.name = x ∧ ∃ i global, s.attributes = .static i global := by
  unfold ofSymbol? at h
  split at h <;> cases h <;> exact ⟨rfl, _, _, rfl⟩

/-- An object without storage is absent. -/
theorem StaticVar.exists_of_static {τ : IntType} {i : InitialValue} {global : Bool}
    (hs : s = ⟨.integer τ, .static i global⟩) (h : ¬ s.Absent) :
    ∃ v : StaticVar, v.name = x ∧ ofSymbol? x s = some v := by
  subst hs
  cases i with
  | tentative => exact ⟨_, rfl, rfl⟩
  | initial c => exact ⟨_, rfl, rfl⟩
  | absent => exact absurd ⟨global, rfl⟩ h

/-- The static variables come in the order of the table, each at most once. -/
theorem names_staticVars_sublist (t : SymbolTable) :
    ((staticVars t).map StaticVar.name).Sublist t.names := by
  induction t with
  | nil => exact .slnil
  | cons e t ih =>
      unfold staticVars at ih ⊢
      rw [List.filterMap_cons]
      split
      · exact ih.cons _
      · rename_i v hv
        rw [List.map_cons, (StaticVar.exists_static hv).1]
        exact ih.cons_cons _

/-! ## Marks of three-address code -/

variable {code : List Instr}

theorem labelsOf_eq_marks (code : List Instr) :
    labelsOf code = (marks code).filterMap Mark.label? := by
  unfold labelsOf marks
  rw [List.filterMap_filterMap]
  refine congrArg (List.filterMap · code) (funext fun i => ?_)
  cases i <;> rfl

theorem jump_mem_marks {l : String} (h : .jump l ∈ marks code) :
    ∃ i ∈ code, i.target? = some l := by
  obtain ⟨i, hi, e⟩ := List.mem_filterMap.1 h
  refine ⟨i, hi, ?_⟩
  cases i <;> cases e <;> rfl

/-- A call among the marks is a call instruction of the code. -/
theorem call_mem_marks {f : String} (h : .call f ∈ marks code) :
    ∃ args dst, .call f args dst ∈ code := by
  obtain ⟨i, hi, e⟩ := List.mem_filterMap.1 h
  cases i with
  | call g args dst =>
      cases e
      exact ⟨args, dst, hi⟩
  | _ => cases e

end ThreeAddress

theorem Mark.label_mem {l : String} {ms : List Mark} :
    l ∈ ms.filterMap Mark.label? ↔ .label l ∈ ms := by
  rw [List.mem_filterMap]
  constructor
  · rintro ⟨m, hm, e⟩
    cases m with
    | label l' =>
        cases e
        exact hm
    | _ => cases e
  · exact fun h => ⟨_, h, rfl⟩

/-! ## What it is to link -/

def Part.object? : Part → Option VarDecl
  | .var d | .fileVar d => some d
  | _ => none

/-- The objects of a program are its variables at file scope and those of blocks. -/
theorem Part.mem_objects {d : VarDecl} {xs : List Part} :
    d ∈ xs.filterMap Part.object? ↔ .fileVar d ∈ xs ∨ .var d ∈ xs := by
  rw [List.mem_filterMap]
  constructor
  · rintro ⟨x, hx, e⟩
    cases x with
    | var d' =>
        cases e
        exact .inr hx
    | fileVar d' =>
        cases e
        exact .inl hx
    | _ => cases e
  · rintro (hd | hd)
    · exact ⟨_, hd, rfl⟩
    · exact ⟨_, hd, rfl⟩

/-- All declarations of the object `x` in the program are `extern` without an initializer, and there
is one. -/
def Program.LeavesOut (p : Program) (x : String) : Prop :=
  (∃ d ∈ p.parts.filterMap Part.object?, d.name = x) ∧
    ∀ d ∈ p.parts.filterMap Part.object?, d.name = x →
      d.storage = some .external ∧ d.init = none

/-- The machine program `m` links: it is what the source program `p` with the symbol table `t`
defines, and what it does not define itself is left to other units. -/
structure Machine.Program.Links (p : IntegerC.Program) (t : SymbolTable) (m : Machine.Program) :
    Prop where
  /-- jumps go to places in the same function -/
  targets : ∀ f ∈ m.functions, ∀ l, .jump l ∈ marks f.instrs → .label l ∈ marks f.instrs
  /-- no label is set twice in the program -/
  labels : (m.functions.flatMap fun f => (marks f.instrs).filterMap Mark.label?).Nodup
  /-- no symbol is defined twice -/
  symbols : (m.functions.map Function.name ++ m.statics.map StaticVar.name).Nodup
  data : ∀ f ∈ m.functions, ∀ i ∈ f.instrs, ∀ x, .data x ∈ i.operands →
    x ∈ m.statics.map StaticVar.name ∨ p.LeavesOut x
  calls : ∀ f ∈ m.functions, ∀ g, .call g ∈ marks f.instrs →
    ∃ params result defined global,
      t.find? g = some ⟨.function params result, .function defined global⟩
  /-- the functions with a body, in their order, with the linkage in the table -/
  functions : List.Forall₂ (fun (h : FunHeader) (f : Machine.Function) => f.name = h.name ∧
    t.find? h.name = some ⟨h.type, .function true f.global⟩)
      (p.parts.filterMap Part.definition?) m.functions

/-! ## Programs that pass validation -/

/-- What is known of a program `p` with labelled loops when checking it gives the program `q` and
the table `t`. -/
structure Program.Validated (p q : Program) (t : SymbolTable) : Prop where
  recorded : Part.Recorded [] p.parts t
  apart : Part.Apart p.parts
  flat : ∀ d ∈ p.decls, d.Flat
  elaborates : p.Elaborates t q
  checked : q.Checked t
  loops : ∃ hi, LoopsGiven 0 hi (p.decls.flatMap Decl.loops)
  named : ∀ x ∈ t.names, Named x

namespace Program

theorem Validated.named_of_find? {p q : Program} {t : SymbolTable} (h : p.Validated q t)
    {x : String} {s : Symbol} (hs : t.find? x = some s) : Named x :=
  h.named x (List.mem_map_of_mem (f := Prod.fst) (Table.mem_of_find?_eq_some hs))

/-- The program declares a name, or the word that it was made of. -/
def DeclaresWordOf (tree : Program) (x : String) : Prop :=
  ∃ word ∈ tree.parts.flatMap Part.declared, x = word ∨ ∃ n, x = numbered word n

/-- A name that the program declares is a plain word, possibly with a number behind it. -/
theorem DeclaresWordOf.named {tree : Program} {m : LineMap} {x : String}
    (h : tree.DeclaresWordOf x) (hw : Part.AllWritten m tree.parts) : Named x := by
  obtain ⟨word, hword, hx⟩ := h
  obtain ⟨part, hpart, hword⟩ := List.mem_flatMap.1 hword
  have hplain := (hw part hpart).declared word hword
  rcases hx with rfl | ⟨n, rfl⟩
  · exact .of_plain hplain
  · exact named_numbered hplain n

/-- The names of a resolved program are words of the text, or made of them. -/
theorem declaresWordOf_of_text {text : String} {ts : List Token} {tree r : Program}
    (hts : tokens text = .ok ts) (htree : Program.ofTokens ts = .ok tree)
    (hr : tree.resolve = .ok r) {x : String}
    (hx : x ∈ r.parts.flatMap Part.linked ∨ x ∈ r.parts.flatMap Part.unlinked) :
    tree.DeclaresWordOf x := by
  obtain ⟨hi, hresolved⟩ := (resolve_ensures (allRead_of_text hts htree)).ok_of_eq hr
  have hmap := ((resolve_scoped_of_written (written_of_text hts htree)).ok_of_eq hr).2.2
  rcases hx with hx | hx
  · obtain ⟨part, hpart, hname⟩ := List.mem_flatMap.1 hx
    -- a name with linkage was read as it is
    have hword : x ∈ tree.linkedNames := by
      rw [← hmap, linkedNames_mapNames]
      exact List.mem_map.2 ⟨_, hx, stem_of_plain ((hresolved.read part hpart).plain x hname)⟩
    obtain ⟨part', hpart', hword⟩ := List.mem_flatMap.1 hword
    exact ⟨x, List.mem_flatMap.2 ⟨part', hpart', part'.linked_subset_declared hword⟩, .inl rfl⟩
  · obtain ⟨part, hpart, hx⟩ := List.mem_flatMap.1 hx
    have hlocal : x ∈ r.localNames :=
      List.mem_flatMap.2 ⟨part, hpart, part.unlinked_sublist_locals.subset hx⟩
    obtain ⟨word, n, -, -, -, rfl⟩ := hresolved.numbered.made x hlocal
    -- without its number it is a name that was read
    have hword : word ∈ tree.localNames := by
      rw [← hmap, localNames_mapNames]
      exact List.mem_map.2 ⟨_, hlocal, stem_numbered word n⟩
    obtain ⟨part', hpart', hword⟩ := List.mem_flatMap.1 hword
    have hdeclared := List.mem_flatMap.2 ⟨part', hpart', part'.locals_subset_declared hword⟩
    exact ⟨word, hdeclared, .inr ⟨n, rfl⟩⟩

/-- So are those of the symbol table. -/
theorem tableNames_of_text {text : String} {ts : List Token} {tree r l q : Program}
    {t : SymbolTable} (hts : tokens text = .ok ts) (htree : Program.ofTokens ts = .ok tree)
    (hr : tree.resolve = .ok r) (hl : r.nameLoops = .ok l) (hq : l.check [] = .ok (q, t)) :
    ∀ x ∈ t.names, tree.DeclaresWordOf x := by
  intro x hx
  obtain ⟨hi, hresolved⟩ := (resolve_ensures (allRead_of_text hts htree)).ok_of_eq hr
  obtain ⟨hsame, -⟩ := (nameLoops_ensures hresolved.read).ok_of_eq hl
  have hrecorded : Part.Recorded [] l.parts t := (l.check_records []).ok_of_eq hq
  refine declaresWordOf_of_text hts htree hr ?_
  rw [hsame.symm.flatMap_eq fun x => by cases x <;> rfl,
    hsame.symm.flatMap_eq fun x => by cases x <;> rfl]
  exact (hrecorded.declared hx).resolve_left (by simp [Table.names])

/-- A text that is checked without a fault gives a validated program. -/
theorem validated_of_text {text : String} {ts : List Token} {tree r l q : Program}
    {t : SymbolTable} (hts : tokens text = .ok ts) (htree : Program.ofTokens ts = .ok tree)
    (hr : tree.resolve = .ok r) (hl : r.nameLoops = .ok l) (hq : l.check [] = .ok (q, t)) :
    l.Validated q t := by
  obtain ⟨hi, hresolved⟩ := (resolve_ensures (allRead_of_text hts htree)).ok_of_eq hr
  obtain ⟨hsame, hlabelled⟩ := (nameLoops_ensures hresolved.read).ok_of_eq hl
  obtain ⟨harranged, hflat⟩ := arranged_of_text hts htree hr (.inr hl)
  have hlresolved := hsame.resolved hresolved
  have hrecorded : Part.Recorded [] l.parts t := (l.check_records []).ok_of_eq hq
  refine ⟨hrecorded, .of_resolved hlresolved, hflat,
    (check_arranged harranged hflat []).ok_of_eq hq,
    (check_ensures (.of_resolved hlresolved) hlabelled).ok_of_eq hq,
    r.nameLoops_apart.ok_of_eq hl, fun x hx => ?_⟩
  exact (tableNames_of_text hts htree hr hl hq x hx).named (written_of_text hts htree)

end Program

/-! ## The program of the machine -/

/-- Two relations between lists compose. -/
theorem forall₂_comp {α β γ : Type} {R : α → β → Prop} {S : β → γ → Prop} {xs : List α}
    {ys : List β} {zs : List γ} (h : List.Forall₂ R xs ys) (h' : List.Forall₂ S ys zs) :
    List.Forall₂ (fun x z => ∃ y ∈ ys, R x y ∧ S y z) xs zs := by
  induction h generalizing zs with
  | nil =>
      cases h'
      exact .nil
  | cons hxy _ ih =>
      cases h' with
      | cons hyz hyzs =>
          refine .cons ⟨_, List.mem_cons_self, hxy, hyz⟩ ((ih hyzs).imp ?_)
          rintro x z ⟨y, hy, hr, hs⟩
          exact ⟨y, List.mem_cons_of_mem _ hy, hr, hs⟩

theorem forall₂_exists_left {α β : Type} {R : α → β → Prop} {xs : List α} {ys : List β}
    (h : List.Forall₂ R xs ys) {y : β} (hy : y ∈ ys) : ∃ x ∈ xs, R x y := by
  induction h with
  | nil => cases hy
  | cons hxy _ ih =>
      rcases List.mem_cons.1 hy with rfl | hy
      · exact ⟨_, List.mem_cons_self, hxy⟩
      · obtain ⟨x, hx, hr⟩ := ih hy
        exact ⟨x, List.mem_cons_of_mem _ hx, hr⟩

theorem map_eq_of_forall₂ {α β γ : Type} {R : α → β → Prop} {f : α → γ} {g : β → γ}
    {xs : List α} {ys : List β} (h : List.Forall₂ R xs ys) (hfg : ∀ x y, R x y → f x = g y) :
    xs.map f = ys.map g := by
  rw [← List.forall₂_eq_eq_eq, List.forall₂_map_left_iff, List.forall₂_map_right_iff]
  exact h.imp hfg

namespace Machine.Program

open ThreeAddress (staticVars entries)

/-- What the last two stages make of the program `q` with the table `t`: three-address code with the
functions `fs` and the temporaries `temps`, and the machine program `m`. -/
structure Finished (q : IntegerC.Program) (t : SymbolTable) (fs : List ThreeAddress.Function)
    (temps : Table IntType) (m : Program) : Prop where
  typed : ∀ f ∈ fs, ThreeAddress.CodeTyped (t ++ entries temps) f.body
  consistent : SymbolTable.Consistent (t ++ entries temps)
  unknown : ∀ x ∈ temps.names, ¬ t.Knows x
  nodup : temps.names.Nodup
  links : List.Forall₂ (ThreeAddress.Function.Links t) (q.decls.filterMap Decl.definition?) fs
  labels : (fs.flatMap fun f => ThreeAddress.labelsOf f.body).Nodup
  named : ∀ l ∈ fs.flatMap fun f => ThreeAddress.labelsOf f.body, IntegerC.Named l
  functions : List.Forall₂ (Function.MadeOf (.ofTable (t ++ entries temps))) fs m.functions
  statics : m.statics = (staticVars t).map .ofCode

/-- The last two stages succeed together: what they make has all the properties that linking asks
for. -/
theorem finished_of_stages {p q : IntegerC.Program} {t : SymbolTable} (h : p.Validated q t)
    {r : ThreeAddress.Program × SymbolTable} (hr : ThreeAddress.Program.ofChecked q t = .ok r)
    {o : Program × Symbols} (ho : ofThreeAddress r.1 r.2 = .ok o) :
    ∃ fs temps, Finished q t fs temps o.1 := by
  obtain ⟨hi, hloops⟩ := h.loops
  rw [← Decl.loops_of_elaborate h.elaborates.2] at hloops
  obtain ⟨fs, temps, hlinks⟩ := ThreeAddress.Program.ofChecked_links h.checked hloops hr
  obtain ⟨hmade, -⟩ := (ThreeAddress.Program.ofChecked_made h.checked).ok_of_eq hr
  obtain ⟨hsymbols, hrelated⟩ := (ofThreeAddress_related hmade).ok_of_eq ho
  rw [hlinks.topLevels] at hrelated
  obtain ⟨hfunctions, hstatics⟩ := TopLevel.Related.split hrelated
  rw [hsymbols, hlinks.symbols] at hfunctions
  refine ⟨fs, temps, ⟨fun f hf => ?_, ?_, hlinks.unknown, hlinks.nodup, hlinks.functions,
    hlinks.labels, hlinks.named, hfunctions, hstatics⟩⟩
  · rw [← hlinks.symbols]
    refine (hmade.functions f ?_).typed
    rw [hlinks.topLevels]
    exact List.mem_append_left _ (List.mem_map_of_mem hf)
  · rw [← hlinks.symbols]
    exact hmade.consistent

namespace Finished

variable {p q : IntegerC.Program} {t : SymbolTable} {fs : List ThreeAddress.Function}
  {temps : Table IntType} {m : Program}

/-- Labels are set in the functions as in their three-address code. -/
theorem labels_eq (h : Finished q t fs temps m) :
    (m.functions.flatMap fun g => (marks g.instrs).filterMap Mark.label?) =
      fs.flatMap fun f => ThreeAddress.labelsOf f.body := by
  rw [List.flatMap_def, List.flatMap_def]
  refine congrArg List.flatten (map_eq_of_forall₂ h.functions fun f g hg => ?_).symm
  rw [hg.marks, ThreeAddress.labelsOf_eq_marks]

/-- Every function comes from the code of a definition. -/
theorem exists_code (h : Finished q t fs temps m) {g : Function} (hg : g ∈ m.functions) :
    ∃ f ∈ fs, (∃ d, ThreeAddress.Function.Links t d f) ∧
      Function.MadeOf (.ofTable (t ++ entries temps)) f g := by
  obtain ⟨f, hf, hfg⟩ := forall₂_exists_left h.functions hg
  obtain ⟨d, -, hdf⟩ := forall₂_exists_left h.links hf
  exact ⟨f, hf, ⟨d, hdf⟩, hfg⟩

theorem targets (h : Finished q t fs temps m) {g : Function} (hg : g ∈ m.functions) {l : String}
    (hl : .jump l ∈ marks g.instrs) : .label l ∈ marks g.instrs := by
  obtain ⟨f, -, ⟨d, hlinks⟩, hmade⟩ := h.exists_code hg
  rw [hmade.marks] at hl ⊢
  obtain ⟨i, hi, htarget⟩ := ThreeAddress.jump_mem_marks hl
  rw [← Mark.label_mem, ← ThreeAddress.labelsOf_eq_marks]
  exact hlinks.enclosed i hi l htarget

/-- Every call goes to a name that is a function in the table. -/
theorem calls (h : Finished q t fs temps m) {g : Function} (hg : g ∈ m.functions) {x : String}
    (hx : .call x ∈ marks g.instrs) : ∃ params result defined global,
      t.find? x = some ⟨.function params result, .function defined global⟩ := by
  obtain ⟨f, hf, -, hmade⟩ := h.exists_code hg
  rw [hmade.marks] at hx
  obtain ⟨args, dst, hcall⟩ := ThreeAddress.call_mem_marks hx
  obtain ⟨params, τ, hτ, -, -⟩ := h.typed f hf _ hcall
  obtain ⟨a, ha⟩ := SymbolTable.typeOf?_eq_some hτ
  have hfind := ThreeAddress.find?_of_append_entries ha fun σ e => by cases e
  have hconsistent := h.consistent x _ ha
  cases a with
  | function defined global => exact ⟨params, τ, defined, global, hfind⟩
  | automatic => exact hconsistent.elim
  | static _ _ => exact hconsistent.elim

/-- The functions are those that the program defines, with the linkage that the table gives them. -/
theorem definitions (h : Finished q t fs temps m) (hp : p.Validated q t) :
    List.Forall₂ (fun (d : FunHeader) (g : Function) => g.name = d.name ∧
      t.find? d.name = some ⟨d.type, .function true g.global⟩)
        (p.parts.filterMap Part.definition?) m.functions := by
  have hdefinitions : p.parts.filterMap Part.definition? = q.decls.filterMap Decl.definition? := by
    rw [Decl.definitions_of_elaborate hp.elaborates.2, ← Decl.definitions_of_flat hp.flat]
    rfl
  have hdefined : ∀ d ∈ q.decls.filterMap Decl.definition?,
      ∃ global, t.find? d.name = some ⟨d.type, .function true global⟩ := by
    intro d hd
    rw [← hdefinitions] at hd
    exact hp.recorded.function_defined hp.apart (Part.mem_definitions.1 hd)
  rw [hdefinitions]
  refine ((List.forall₂_and_left _ _).2 ⟨hdefined, forall₂_comp h.links h.functions⟩).imp ?_
  rintro d g ⟨⟨global, hd⟩, f, -, hlinks, hmade⟩
  refine ⟨hmade.name.trans hlinks.name, ?_⟩
  obtain ⟨σ, defined, hd'⟩ := hlinks.linkage
  rw [hd] at hd'
  cases hd'
  rw [hd, hmade.global]

theorem statics_names (h : Finished q t fs temps m) :
    m.statics.map StaticVar.name = (staticVars t).map ThreeAddress.StaticVar.name := by
  rw [h.statics, List.map_map]
  rfl

/-- Functions and static variables have symbols of their own. -/
theorem symbols_nodup (h : Finished q t fs temps m) (hp : p.Validated q t) :
    (m.functions.map Function.name ++ m.statics.map StaticVar.name).Nodup := by
  have hnames := hp.recorded.nodup List.nodup_nil
  have hdefinitions := h.definitions hp
  have hfunctions : (p.parts.filterMap Part.definition?).map FunHeader.name =
      m.functions.map Function.name :=
    map_eq_of_forall₂ hdefinitions fun d g hg => hg.1.symm
  rw [h.statics_names, List.nodup_append]
  refine ⟨?_, hnames.sublist (ThreeAddress.names_staticVars_sublist t), ?_⟩
  · rw [← hfunctions]
    exact hp.recorded.nodup_definitions hp.apart
  · rintro x hx _ hy rfl
    -- the name would have two entries
    obtain ⟨g, hg, rfl⟩ := List.mem_map.1 hx
    obtain ⟨d, -, hd, hfind⟩ := forall₂_exists_left hdefinitions hg
    obtain ⟨v, hv, hname⟩ := List.mem_map.1 hy
    obtain ⟨⟨y, s⟩, hmem, hs⟩ := ThreeAddress.mem_staticVars.1 hv
    obtain ⟨rfl, i, global, hstatic⟩ := ThreeAddress.StaticVar.exists_static hs
    have hfind' := Table.find?_of_mem hnames hmem
    rw [hname, hd, hfind] at hfind'
    cases hfind'
    cases hstatic

/-- What is in the data section is a static object of the table. -/
theorem data_static (h : Finished q t fs temps m) (hp : p.Validated q t) {g : Function}
    (hg : g ∈ m.functions) {i : Instr} (hi : i ∈ g.instrs) {x : String}
    (hx : .data x ∈ i.operands) :
    ∃ τ init global, t.find? x = some ⟨.integer τ, .static init global⟩ := by
  have hnames := hp.recorded.nodup List.nodup_nil
  obtain ⟨f, -, -, hmade⟩ := h.exists_code hg
  obtain ⟨w, hw⟩ := hmade.data i hi x hx
  obtain ⟨s, hs, hobject⟩ := Symbols.find?_of_ofTable
    (ThreeAddress.nodup_append_entries hnames h.nodup h.unknown) hw
  obtain ⟨τ, init, global, rfl⟩ : ∃ τ init global, s = ⟨.integer τ, .static init global⟩ := by
    unfold Symbol.ofSymbol? at hobject
    split at hobject <;> cases hobject
    exact ⟨_, _, _, rfl⟩
  exact ⟨τ, init, global, ThreeAddress.find?_of_append_entries hs fun σ e => by cases e⟩

/-- It is defined in the program, or all declarations leave it to other units. -/
theorem data (h : Finished q t fs temps m) (hp : p.Validated q t) {g : Function}
    (hg : g ∈ m.functions) {i : Instr} (hi : i ∈ g.instrs) {x : String}
    (hx : .data x ∈ i.operands) :
    x ∈ m.statics.map StaticVar.name ∨ p.LeavesOut x := by
  obtain ⟨τ, init, global, hfind⟩ := h.data_static hp hg hi hx
  by_cases habsent : IntegerC.Symbol.Absent ⟨.integer τ, .static init global⟩
  · refine .inr ⟨?_, fun d hd hname => ?_⟩
    · rcases hp.recorded.exists_var hfind rfl with ⟨_, _, hnone, -⟩ | ⟨d, hd, hmem⟩
      · cases hnone
      · exact ⟨d, Part.mem_objects.2 hmem, hd⟩
    · exact hp.recorded.extern_of_absent hp.apart (Part.mem_objects.1 hd) (hname ▸ hfind) habsent
  · obtain ⟨v, hname, hv⟩ := ThreeAddress.StaticVar.exists_of_static rfl habsent
    rw [h.statics_names]
    exact .inl (List.mem_map.2
      ⟨v, ThreeAddress.mem_staticVars.2 ⟨_, Table.mem_of_find?_eq_some hfind, hv⟩, hname⟩)

theorem linked (h : Finished q t fs temps m) (hp : p.Validated q t) : Links p t m where
  targets := fun _ hg _ => h.targets hg
  labels := h.labels_eq ▸ h.labels
  symbols := h.symbols_nodup hp
  data := fun _ hg _ hi _ => h.data hp hg hi
  calls := fun _ hg _ => h.calls hg
  functions := h.definitions hp

/-- All names in the program are words of the text, or made of words. -/
theorem allNamed (h : Finished q t fs temps m) (hp : p.Validated q t) : m.Named where
  statics := by
    intro v hv
    refine hp.named _ ((ThreeAddress.names_staticVars_sublist t).subset ?_)
    rw [← h.statics_names]
    exact List.mem_map_of_mem hv
  functions := by
    intro g hg
    obtain ⟨d, -, hd, hfind⟩ := forall₂_exists_left (h.definitions hp) hg
    exact hd ▸ hp.named_of_find? hfind
  instrs := by
    intro g hg i hi
    refine ⟨fun mark hmark => ?_, fun x hx => ?_⟩
    · have hmem : mark ∈ marks g.instrs := List.mem_filterMap.2 ⟨i, hi, hmark⟩
      have hlabel : ∀ l, .label l ∈ marks g.instrs → IntegerC.Named l := by
        intro l hl
        refine h.named l (h.labels_eq ▸ List.mem_flatMap.2 ⟨g, hg, ?_⟩)
        exact Mark.label_mem.2 hl
      cases mark with
      | label l => exact hlabel l hmem
      | jump l => exact hlabel l (h.targets hg hmem)
      | call x =>
          obtain ⟨_, _, _, _, hfind⟩ := h.calls hg hmem
          exact hp.named_of_find? hfind
    · obtain ⟨_, _, _, hfind⟩ := h.data_static hp hg hi hx
      exact hp.named_of_find? hfind

end Finished

/-! ## The text -/

theorem symbol_injective (platform : Platform) : Function.Injective platform.symbol := by
  cases platform with
  | linux => exact fun _ _ h => h
  | macos => exact fun _ _ h => (String.append_right_inj "_").1 h

theorem label_injective (platform : Platform) : Function.Injective platform.label := by
  cases platform <;> exact fun _ _ h => (String.append_right_inj _).1 h

/-- A symbol is spelled differently from every label inside a function. -/
theorem symbol_ne_label (platform : Platform) {x : String} (hx : IntegerC.Named x) (l : String) :
    platform.symbol x ≠ platform.label l := by
  intro h
  have hlist := congrArg String.toList h
  cases platform with
  | linux =>
      have hlabel : (Platform.linux.label l).toList = '.' :: 'L' :: l.toList := by
        simp [Platform.label]
      exact hx.toList_ne (by decide) _ (hlist.trans hlabel)
  | macos =>
      simp [Platform.symbol, Platform.label] at hlist

/-- No label stands twice in the text of a program that links. -/
theorem Links.textLabels_nodup {p : IntegerC.Program} {t : SymbolTable} {m : Program}
    (h : Links p t m) (hm : m.Named) (platform : Platform) : (m.textLabels platform).Nodup := by
  have hsymbols := h.symbols.map (symbol_injective platform)
  have hlabels := h.labels.map (label_injective platform)
  have hperm : (m.textLabels platform).Perm
      ((m.functions.map Function.name ++ m.statics.map StaticVar.name).map platform.symbol ++
        (m.functions.flatMap fun f => (marks f.instrs).filterMap Mark.label?).map
          platform.label) := by
    have hfunctions := List.flatMap_append_perm m.functions (fun f => [platform.symbol f.name])
      fun f => ((marks f.instrs).filterMap Mark.label?).map platform.label
    rw [List.map_append, List.map_map, List.map_map, List.map_flatMap]
    refine (List.Perm.append_left _ hfunctions.symm).trans ?_
    rw [← List.append_assoc, ← List.map_eq_flatMap]
    exact List.Perm.append_right _ List.perm_append_comm
  refine hperm.nodup_iff.2 (List.nodup_append.2 ⟨hsymbols, hlabels, ?_⟩)
  rintro _ hsymbol _ hlabel e
  obtain ⟨x, hx, rfl⟩ := List.mem_map.1 hsymbol
  obtain ⟨l, -, rfl⟩ := List.mem_map.1 hlabel
  refine symbol_ne_label platform ?_ l e
  rcases List.mem_append.1 hx with hx | hx
  · obtain ⟨f, hf, rfl⟩ := List.mem_map.1 hx
    exact hm.functions f hf
  · obtain ⟨v, hv, rfl⟩ := List.mem_map.1 hx
    exact hm.statics v hv

/-- The text is made of lines that do not end early, and no two of its lines with a label are the
same. -/
def LinesApart (text : String) (e : Text.LineEnding) : Prop :=
  ∃ lines, text = e.unlines lines ∧ (∀ line ∈ lines, '\n' ∉ line.toList ∧ '\r' ∉ line.toList) ∧
    (lines.filter fun line => IsLabel line).Nodup

theorem Links.linesApart {p : IntegerC.Program} {t : SymbolTable} {m : Program} (h : Links p t m)
    (hm : m.Named) (platform : Platform) (s : Symbols) (e : Text.LineEnding) :
    Answers (m.assembly platform s e) (fun text => LinesApart text e) := by
  refine (m.blocks_lines hm platform s).bind fun blocks hlines =>
    .pure ⟨_, rfl, hlines.unbroken, ?_⟩
  rw [hlines.labels]
  exact (h.textLabels_nodup hm platform).map fun _ _ h => (String.append_left_inj ":").1 h

end Machine.Program

/-! ## Texts -/

/-- The program that is made of a text links: it is closed up to what is left to other units on
purpose, and defines every name once. No two lines of its text with a label are equal, whatever the
platform. -/
theorem links_of_text {text : String} {c : Compiled} (h : runStages text none = .ok (some c)) :
    (∃ ts tree r p q t, tokens text = .ok ts ∧ Program.ofTokens ts = .ok tree ∧
      tree.resolve = .ok r ∧ r.nameLoops = .ok p ∧ p.check [] = .ok (q, t) ∧
      c.machine.Links p t) ∧
    ∀ platform e, ∃ assembly, c.machine.assembly platform c.symbols e = .ok assembly ∧
      Machine.Program.LinesApart assembly e := by
  obtain ⟨ts, tree, q, t, code, hts, htree, hq, hcode, -, hm⟩ := runStages_eq_some h
  obtain ⟨r, hr, hq⟩ := bind_eq_ok.1 hq
  obtain ⟨p, hp, hq⟩ := bind_eq_ok.1 hq
  have hvalidated := Program.validated_of_text hts htree hr hp hq
  obtain ⟨fs, temps, hfinished⟩ := Machine.Program.finished_of_stages hvalidated hcode hm
  have hlinks := hfinished.linked hvalidated
  have hnamed := hfinished.allNamed hvalidated
  refine ⟨⟨ts, tree, r, p, q, t, hts, htree, hr, hp, hq, hlinks⟩, fun platform e => ?_⟩
  obtain ⟨_, e', hwritable⟩ := (runStages_ensures text none).ok_of_eq h
  cases e'
  obtain ⟨assembly, hassembly, -⟩ :=
    (Machine.Program.assembly_succeeds hwritable platform c.symbols e).exists_ok
  exact ⟨assembly, hassembly,
    (hlinks.linesApart hnamed platform c.symbols e).ok_of_eq hassembly⟩

/-- The text of a program that uses an object and a function of other units, and in which an object
is declared before its definition, in a block and again at file scope. -/
def linkedText : String :=
  "extern int a; static int b; int g(int k); int f(int n) \x7b extern int c; static long b = 3; " ++
    "for (int i = 0; i < n; i = i + 1) if (a) break; else c = b + 1; return g(c); \x7d " ++
    "int main(void) \x7b extern int b; while (f(b)) b = 0; return a && b; \x7d int c = 7; int c;"

theorem links_of_linkedText : ∃ c, runStages linkedText none = .ok (some c) ∧
    c.machine.functions.map (fun f => (f.name, f.global)) = [("f", true), ("main", true)] ∧
    c.machine.statics.map (fun v => (v.name, v.global, v.init)) =
      [("b", false, 0), ("c", true, 7), ("b.2", false, 3)] ∧
    (∃ ts tree r p q t, tokens linkedText = .ok ts ∧ Program.ofTokens ts = .ok tree ∧
      tree.resolve = .ok r ∧ r.nameLoops = .ok p ∧ p.check [] = .ok (q, t) ∧
      c.machine.Links p t) ∧
    ∀ platform e, ∃ assembly, c.machine.assembly platform c.symbols e = .ok assembly ∧
      Machine.Program.LinesApart assembly e := by
  have hchars : linkedText.toList = _ :=
    toList_append_eq (toList_append_eq String.toList_ofList String.toList_ofList)
      String.toList_ofList
  have h : ((runStages linkedText none).toOption.bind fun o => o.bind fun c =>
      some (c.machine.functions.map (fun f => (f.name, f.global)),
        c.machine.statics.map (fun v => (v.name, v.global, v.init)))) =
      some ([("f", true), ("main", true)],
        [("b", false, 0), ("c", true, 7), ("b.2", false, 3)]) := by
    rw [runStages, tokens, hchars]
    decide +kernel
  obtain ⟨o, ho, h⟩ := toOption_bind_eq_some.1 h
  obtain ⟨c, rfl, h⟩ := Option.bind_eq_some_iff.1 h
  have h := Option.some.inj h
  exact ⟨c, ho, congrArg Prod.fst h, congrArg Prod.snd h, links_of_text ho⟩

end IntegerC
