import IntegerC.Proofs.Recording

set_option autoImplicit false

/-! # What becomes of the entries of a table

An entry stays when later parts of the program are checked: a function that is defined stays
defined, and an object whose storage is in the program keeps it. So the last table tells of each
name what all of its declarations say together: a function with a body is defined, once, and an
object is without an initial value only if none of its declarations gives it one.
-/

namespace IntegerC

/-! ## Tables -/

theorem Table.mem_names_put {α : Type} {t : Table α} {x y : String} {a : α} :
    y ∈ (t.put x a).names ↔ y ∈ t.names ∨ y = x := by
  rw [names_put]
  split
  · rename_i hx
    exact ⟨.inl, fun h => h.elim id fun e => e ▸ hx⟩
  · rw [List.mem_append, List.mem_singleton]

namespace SymbolTable

variable {t : SymbolTable} {ps : List Param} {y : String}

theorem mem_names_withParams (h : y ∈ (t.withParams ps).names) :
    y ∈ t.names ∨ y ∈ ps.map Param.name := by
  induction ps generalizing t with
  | nil => exact .inl h
  | cons q ps ih =>
      rw [List.map_cons, List.mem_cons]
      rcases ih h with h | h
      · exact (Table.mem_names_put.1 h).imp_right .inl
      · exact .inr (.inr h)

theorem nodup_withParams (h : t.names.Nodup) (ps : List Param) :
    (t.withParams ps).names.Nodup := by
  induction ps generalizing t with
  | nil => exact h
  | cons q ps ih => exact ih (Table.nodup_put h _ _)

theorem find?_withParams (h : y ∉ ps.map Param.name) : (t.withParams ps).find? y = t.find? y := by
  induction ps generalizing t with
  | nil => rfl
  | cons q ps ih =>
      rw [List.map_cons, List.mem_cons, not_or] at h
      exact (ih h.2).trans (Table.find?_put_of_ne t _ h.1)

/-- A parameter is an automatic variable, and no other entry changes. -/
theorem withParams_cases (t : SymbolTable) (ps : List Param) (y : String) :
    (t.withParams ps).find? y = t.find? y ∨
      ∃ τ, (t.withParams ps).find? y = some (.automatic τ) := by
  induction ps generalizing t with
  | nil => exact .inl rfl
  | cons q ps ih =>
      refine (ih (t.put q.name (.automatic q.type))).elim (fun h => ?_) .inr
      by_cases hy : y = q.name
      · subst hy
        exact .inr ⟨q.type, h.trans (Table.find?_put_self ..)⟩
      · exact .inl (h.trans (Table.find?_put_of_ne t _ hy))

end SymbolTable

/-! ## One entry -/

/-- How the attributes of a name can change when more declarations of it follow. -/
inductive Attributes.Becomes : Attributes → Attributes → Prop
  | automatic : Becomes .automatic .automatic
  | static {i i' : InitialValue} {global : Bool} (h : i' = .absent → i = .absent) :
      Becomes (.static i global) (.static i' global)
  | function {defined defined' global : Bool} (h : defined = true → defined' = true) :
      Becomes (.function defined global) (.function defined' global)

/-- How an entry can change when more declarations of its name follow. -/
structure Symbol.Becomes (s s' : Symbol) : Prop where
  type : s'.type = s.type
  attributes : s.attributes.Becomes s'.attributes

/-- An object whose storage may be elsewhere. -/
def Symbol.Absent (s : Symbol) : Prop := ∃ global, s.attributes = .static .absent global

theorem Symbol.Becomes.refl (s : Symbol) : s.Becomes s := by
  refine ⟨rfl, ?_⟩
  cases s.attributes with
  | automatic => exact .automatic
  | static i global => exact .static id
  | function defined global => exact .function id

/-- An entry changes in steps, and each step keeps the type and what is defined already. -/
theorem Symbol.Becomes.trans {s s' s'' : Symbol} (h : s.Becomes s') (h' : s'.Becomes s'') :
    s.Becomes s'' := by
  obtain ⟨τ, a⟩ := s
  obtain ⟨τ', a'⟩ := s'
  obtain ⟨τ'', a''⟩ := s''
  obtain ⟨hτ, ha⟩ := h
  obtain ⟨hτ', ha'⟩ := h'
  refine ⟨hτ'.trans hτ, ?_⟩
  dsimp only at ha ha' ⊢
  cases ha with
  | automatic => exact ha'
  | static hi =>
      cases ha' with
      | static hi' => exact .static fun e => hi (hi' e)
  | function hd =>
      cases ha' with
      | function hd' => exact .function fun e => hd' (hd e)

/-- An object whose storage is elsewhere after a change had it elsewhere before. -/
theorem Symbol.Becomes.absent {s s' : Symbol} (h : s.Becomes s') (hs : s'.Absent) : s.Absent := by
  obtain ⟨global, e⟩ := hs
  have ha := h.attributes
  rw [e] at ha
  cases hs : s.attributes with
  | static i global' =>
      rw [hs] at ha
      cases ha with
      | static hi => exact ⟨global, by rw [hs, hi rfl]⟩
  | automatic | function _ _ =>
      rw [hs] at ha
      cases ha

/-- A function that is defined stays defined. -/
theorem Symbol.Becomes.defined {s s' : Symbol} {global : Bool} (h : s.Becomes s')
    (hs : s.attributes = .function true global) : s'.attributes = .function true global := by
  have ha := h.attributes
  rw [hs] at ha
  cases hs' : s'.attributes with
  | function d g =>
      rw [hs'] at ha
      cases ha with
      | function hd => rw [hd rfl]
  | automatic | static _ _ =>
      rw [hs'] at ha
      cases ha

theorem InitialValue.merge_ne_absent {old new i : InitialValue} (h : old.merge new = some i)
    (hi : i = .absent) : old = .absent ∧ new = .absent := by
  subst hi
  cases old <;> cases new <;> simp_all [merge]

/-- The initial value that a declaration at file scope gives an object by itself. -/
theorem VarDecl.fileEntry_cases {d : VarDecl} {value : Option Constant} {old : Option Symbol}
    {s : Symbol} (h : d.fileEntry value old = .ok s) :
    (∀ s' ∈ old, s'.Becomes s) ∧ ∃ i global, s = ⟨.integer d.type, .static i global⟩ ∧
      (i = .absent → value = none ∧ d.storage = some .external) := by
  unfold fileEntry at h
  extract_lets initial at h
  have hown : initial = .absent → value = none ∧ d.storage = some .external := by
    cases value <;> simp [initial]
  split at h
  · cases h
    exact ⟨by simp, _, _, rfl, hown⟩
  · split at h
    · cases h
    · rename_i hτ
      split at h
      · cases h
      · split at h
        · cases h
        · rename_i i hi
          cases h
          refine ⟨?_, i, _, rfl, fun e => hown (InitialValue.merge_ne_absent hi e).2⟩
          rintro s' hs'
          cases hs'
          exact ⟨(Decidable.not_not.1 hτ).symm,
            .static fun e => (InitialValue.merge_ne_absent hi e).1⟩
  · cases h

/-- What an entry of a function tells of the one before it, and that a function is not defined
twice. -/
theorem FunHeader.entry_cases {f : FunHeader} {defines : Bool} {old : Option Symbol} {s : Symbol}
    (h : f.entry defines old = .ok s) :
    (∀ s' ∈ old, s'.Becomes s) ∧ ∃ defined global, s = ⟨f.type, .function defined global⟩ ∧
      (defines = true → defined = true ∧
        ∀ s' ∈ old, ∀ g, s'.attributes ≠ .function true g) := by
  unfold entry at h
  split at h
  · cases h
    exact ⟨by simp, _, _, rfl, fun hd => ⟨hd, by simp⟩⟩
  · rename_i τ defined global
    split at h
    · cases h
    · rename_i hτ
      split at h
      · cases h
      · rename_i hd
        split at h
        · cases h
        · cases h
          refine ⟨?_, _, _, rfl, fun e => ?_⟩
          · rintro s' hs'
            cases hs'
            exact ⟨(Decidable.not_not.1 hτ).symm, .function fun e => by simp [e]⟩
          · cases defined <;> simp_all
  · cases h

/-! ## One part -/

/-- Parts whose names with linkage are not declared without linkage, and whose names without linkage
are declared once. -/
structure Part.Apart (xs : List Part) : Prop where
  nodup : (xs.flatMap Part.unlinked).Nodup
  linked : ∀ y ∈ xs.flatMap Part.linked, y ∉ xs.flatMap Part.unlinked

namespace Part

variable {t u v : SymbolTable} {x : Part} {xs ys before after : List Part} {y : String}
  {s : Symbol} {d : VarDecl} {f : FunHeader}

namespace Apart

theorem of_resolved {p : Span → Prop} {lo hi : Nat} (h : Resolved p lo hi xs) : Apart xs where
  nodup := h.unlinked.nodup
  linked := by
    intro y hy hy'
    obtain ⟨x, hx, hy⟩ := List.mem_flatMap.1 hy
    exact h.unlinked.not_plain y hy' ((h.read x hx).plain y hy)

/-- A name that a part declares is not declared without linkage later. -/
theorem later (h : Apart (before ++ x :: after)) (hy : y ∈ x.linked ∨ y ∈ x.unlinked) :
    y ∉ after.flatMap Part.unlinked := by
  obtain ⟨hn, hl⟩ := h
  simp only [List.flatMap_append, List.flatMap_cons] at hn hl
  rcases hy with hy | hy
  · intro hy'
    exact hl y (by simp [hy]) (by simp [hy'])
  · intro hy'
    have hn := (List.nodup_append.1 hn).2.1
    exact (List.nodup_append.1 hn).2.2 y hy y hy' rfl

theorem name_notMem_params (h : Apart xs) (hf : .function f ∈ xs) : f.name ∉ f.paramNames := by
  intro hmem
  refine h.linked f.name ?_ ?_
  · exact List.mem_flatMap.2 ⟨_, hf, List.mem_singleton_self f.name⟩
  · exact List.mem_flatMap.2 ⟨_, hf, hmem⟩

theorem tail (h : Apart (x :: xs)) : Apart xs where
  nodup := by
    have hn := h.nodup
    rw [List.flatMap_cons] at hn
    exact (List.nodup_append.1 hn).2.1
  linked := by
    intro y hy hy'
    refine h.linked y ?_ ?_
    · rw [List.flatMap_cons]
      exact List.mem_append_right _ hy
    · rw [List.flatMap_cons]
      exact List.mem_append_right _ hy'

end Apart

theorem Records.nodup (h : x.Records t u) (hn : t.names.Nodup) : u.names.Nodup := by
  cases h with
  | span | loop | expr | known => exact hn
  | function => exact SymbolTable.nodup_withParams (Table.nodup_put hn _ _) _
  | _ => exact Table.nodup_put hn _ _

/-- Only declared names come in. -/
theorem Records.declared (h : x.Records t u) (hy : y ∈ u.names) :
    y ∈ t.names ∨ y ∈ x.linked ∨ y ∈ x.unlinked := by
  cases h with
  | span | loop | expr | known => exact .inl hy
  | fileVar | prototype =>
      exact (Table.mem_names_put.1 hy).imp_right fun e => .inl (by simp [linked, e])
  | external hst =>
      exact (Table.mem_names_put.1 hy).imp_right fun e => .inl (by simp [linked, hst, e])
  | static hst | automatic hst =>
      exact (Table.mem_names_put.1 hy).imp_right fun e => .inr (by simp [unlinked, hst, e])
  | function =>
      rcases SymbolTable.mem_names_withParams hy with hy | hy
      · exact (Table.mem_names_put.1 hy).imp_right fun e => .inl (by simp [linked, e])
      · exact .inr (.inr hy)

/-- An entry stays, unless the part declares the name without linkage. -/
theorem Records.becomes (h : x.Records t u) (hy : y ∉ x.unlinked) (hs : t.find? y = some s) :
    ∃ s', u.find? y = some s' ∧ s.Becomes s' := by
  -- the entry of the name itself, and those of other names
  have hput : ∀ (n : String) (s' : Symbol), (y = n → s.Becomes s') →
      ∃ s'', Table.find? (t.put n s') y = some s'' ∧ s.Becomes s'' := by
    intro n s' h
    by_cases e : y = n
    · exact ⟨s', e ▸ Table.find?_put_self t n s', h e⟩
    · exact ⟨s, (Table.find?_put_of_ne t s' e).trans hs, .refl s⟩
  cases h with
  | span | loop | expr | known => exact ⟨s, hs, .refl s⟩
  | fileVar hv hentry => exact hput _ _ fun e => (VarDecl.fileEntry_cases hentry).1 s (e ▸ hs)
  | external hst hi hnew => exact hput _ _ fun e => by rw [← e, hs] at hnew; cases hnew
  | static hst hv => exact hput _ _ fun e => absurd e (by simpa [unlinked, hst] using hy)
  | automatic hst => exact hput _ _ fun e => absurd e (by simpa [unlinked, hst] using hy)
  | prototype hentry => exact hput _ _ fun e => (FunHeader.entry_cases hentry).1 s (e ▸ hs)
  | function hentry =>
      rw [SymbolTable.find?_withParams hy]
      exact hput _ _ fun e => (FunHeader.entry_cases hentry).1 s (e ▸ hs)

/-- A variable is without storage only if its declaration leaves that to other ones. -/
theorem Records.absent (hx : x = .fileVar d ∨ x = .var d) (h : x.Records t u) :
    (d.storage = some .external ∧ d.init = none) ∨
      ∃ s, u.find? d.name = some s ∧ ¬ s.Absent := by
  rcases hx with rfl | rfl
  · cases h with
    | @fileVar _ value s hv hentry =>
        obtain ⟨-, i, global, rfl, hi⟩ := VarDecl.fileEntry_cases hentry
        by_cases e : i = .absent
        · obtain ⟨rfl, hst⟩ := hi e
          refine .inl ⟨hst, ?_⟩
          unfold VarDecl.staticValue? at hv
          split at hv
          · assumption
          · obtain ⟨c, -, hc⟩ := map_eq_ok.1 hv
            cases hc
        · refine .inr ⟨_, Table.find?_put_self _ _ _, ?_⟩
          rintro ⟨g, hg⟩
          cases hg
          exact e rfl
  · cases h with
    | external hst hi | known hst hi => exact .inl ⟨hst, hi⟩
    | static | automatic =>
        refine .inr ⟨_, Table.find?_put_self _ _ _, ?_⟩
        rintro ⟨g, hg⟩
        cases hg

/-- A function with a body is defined, and was not before. -/
theorem Records.function_defined (h : (Part.function f).Records t u) (hf : f.name ∉ f.paramNames) :
    (∃ global, u.find? f.name = some ⟨f.type, .function true global⟩) ∧
      ∀ s ∈ t.find? f.name, ∀ g, s.attributes ≠ .function true g := by
  cases h with
  | function hentry =>
      obtain ⟨-, defined, global, rfl, hd⟩ := FunHeader.entry_cases hentry
      obtain ⟨rfl, hold⟩ := hd rfl
      refine ⟨⟨global, ?_⟩, hold⟩
      rw [SymbolTable.find?_withParams hf, Table.find?_put_self]

/-- Only the declaration of a variable makes a name that of a static object. -/
theorem Records.exists_var (h : x.Records t u) {i : InitialValue} {global : Bool}
    (hs : u.find? y = some s) (ha : s.attributes = .static i global) :
    (∃ s' i', t.find? y = some s' ∧ s'.attributes = .static i' global) ∨
      ∃ d, d.name = y ∧ (x = .fileVar d ∨ x = .var d) := by
  -- an entry that is no variable was not put here, so the variable is older
  have hput : ∀ (n : String) (s' : Symbol), Table.find? (t.put n s') y = some s →
      (∀ i g, s'.attributes ≠ .static i g) →
      ∃ s' i', t.find? y = some s' ∧ s'.attributes = .static i' global := by
    intro n s' hs hne
    by_cases e : y = n
    · rw [e, Table.find?_put_self] at hs
      cases hs
      exact absurd ha (hne _ _)
    · rw [Table.find?_put_of_ne t s' e] at hs
      exact ⟨s, i, hs, ha⟩
  -- a variable that is put under this name is the one, and otherwise it is older
  have hvar : ∀ (d : VarDecl) (s' : Symbol), x = .fileVar d ∨ x = .var d →
      Table.find? (t.put d.name s') y = some s →
      (∃ s' i', t.find? y = some s' ∧ s'.attributes = .static i' global) ∨
        ∃ d, d.name = y ∧ (x = .fileVar d ∨ x = .var d) := by
    intro d s' hx hs
    by_cases e : y = d.name
    · exact .inr ⟨d, e.symm, hx⟩
    · rw [Table.find?_put_of_ne t s' e] at hs
      exact .inl ⟨s, i, hs, ha⟩
  cases h with
  | span | loop | expr | known => exact .inl ⟨s, i, hs, ha⟩
  | fileVar => exact hvar _ _ (.inl rfl) hs
  | external | static | automatic => exact hvar _ _ (.inr rfl) hs
  | prototype hentry =>
      obtain ⟨-, defined, g, rfl, -⟩ := FunHeader.entry_cases hentry
      exact .inl (hput _ _ hs fun _ _ e => by cases e)
  | function hentry =>
      obtain ⟨-, defined, g, rfl, -⟩ := FunHeader.entry_cases hentry
      rcases SymbolTable.withParams_cases (t.put _ _) _ y with e | ⟨τ, e⟩
      · exact .inl (hput _ _ (e ▸ hs) fun _ _ e => by cases e)
      · rw [e] at hs
        cases hs
        cases ha

/-! ## All parts -/

namespace Recorded

theorem nodup (h : Recorded t xs u) (hn : t.names.Nodup) : u.names.Nodup := by
  induction h with
  | nil => exact hn
  | cons hx _ ih => exact ih (hx.nodup hn)

/-- Every name of the table stood in it before or is declared by the parts. -/
theorem declared (h : Recorded t xs u) (hy : y ∈ u.names) :
    y ∈ t.names ∨ y ∈ xs.flatMap Part.linked ∨ y ∈ xs.flatMap Part.unlinked := by
  induction h with
  | nil => exact .inl hy
  | cons hx _ ih =>
      simp only [List.flatMap_cons, List.mem_append]
      rcases ih hy with hy | hy | hy
      · exact (hx.declared hy).imp_right (.imp .inl .inl)
      · exact .inr (.inl (.inr hy))
      · exact .inr (.inr (.inr hy))

/-- An entry that no block-scope part replaces keeps its type and whatever it defines. -/
theorem becomes (h : Recorded t xs u) (hy : y ∉ xs.flatMap Part.unlinked)
    (hs : t.find? y = some s) : ∃ s', u.find? y = some s' ∧ s.Becomes s' := by
  induction h generalizing s with
  | nil => exact ⟨s, hs, .refl s⟩
  | cons hx _ ih =>
      rw [List.flatMap_cons, List.mem_append, not_or] at hy
      obtain ⟨s₁, hs₁, h₁⟩ := hx.becomes hy.1 hs
      obtain ⟨s₂, hs₂, h₂⟩ := ih hy.2 hs₁
      exact ⟨s₂, hs₂, h₁.trans h₂⟩

/-- All declarations of an object that is without storage leave it to others. -/
theorem extern_of_absent (h : Recorded t xs u) (ha : Apart xs)
    (hx : .fileVar d ∈ xs ∨ .var d ∈ xs) (hs : u.find? d.name = some s) (habsent : s.Absent) :
    d.storage = some .external ∧ d.init = none := by
  have key : ∀ x ∈ xs, (x = .fileVar d ∨ x = .var d) →
      d.storage = some .external ∧ d.init = none := by
    intro x hx hxd
    obtain ⟨before, after, t₁, t₂, rfl, -, hx, hafter⟩ := h.exists_of_mem hx
    refine (hx.absent hxd).resolve_right ?_
    rintro ⟨s₁, hs₁, hne⟩
    have hname : d.name ∈ x.linked ∨ d.name ∈ x.unlinked := by
      rcases hxd with rfl | rfl
      · simp [linked]
      · by_cases e : d.storage = some .external <;> simp [linked, unlinked, e]
    obtain ⟨s₂, hs₂, hb⟩ := hafter.becomes (ha.later hname) hs₁
    rw [hs] at hs₂
    cases hs₂
    exact hne (hb.absent habsent)
  rcases hx with hx | hx
  · exact key _ hx (.inl rfl)
  · exact key _ hx (.inr rfl)

/-- A static object has a declaration. -/
theorem exists_var (h : Recorded t xs u) {i : InitialValue} {global : Bool}
    (hs : u.find? y = some s) (ha : s.attributes = .static i global) :
    (∃ s' i', t.find? y = some s' ∧ s'.attributes = .static i' global) ∨
      ∃ d, d.name = y ∧ (.fileVar d ∈ xs ∨ .var d ∈ xs) := by
  induction h generalizing s i with
  | nil => exact .inl ⟨s, i, hs, ha⟩
  | cons hx _ ih =>
      rcases ih hs ha with ⟨s', i', hs', ha'⟩ | ⟨d, hd, hmem⟩
      · refine (hx.exists_var hs' ha').imp_right ?_
        rintro ⟨d, hd, hxd⟩
        exact ⟨d, hd, hxd.imp (by rintro rfl; simp) (by rintro rfl; simp)⟩
      · exact .inr ⟨d, hd, hmem.imp (List.mem_cons_of_mem _) (List.mem_cons_of_mem _)⟩

/-- After all parts are recorded, a function with a body among them stands as defined. -/
theorem function_defined (h : Recorded t xs u) (ha : Apart xs) (hf : .function f ∈ xs) :
    ∃ global, u.find? f.name = some ⟨f.type, .function true global⟩ := by
  obtain ⟨before, after, t₁, t₂, rfl, -, hx, hafter⟩ := h.exists_of_mem hf
  obtain ⟨global, hs⟩ := (hx.function_defined (ha.name_notMem_params hf)).1
  obtain ⟨s, hs', hb⟩ := hafter.becomes (ha.later (.inl (by simp [linked]))) hs
  refine ⟨global, hs'.trans ?_⟩
  obtain ⟨τ, a⟩ := s
  obtain rfl : τ = f.type := hb.type
  obtain rfl : a = .function true global := hb.defined rfl
  rfl

/-- What is defined already is not defined again. -/
theorem function_notMem (h : Recorded t xs u) (ha : Apart xs) (hs : t.find? y = some s)
    {global : Bool} (hd : s.attributes = .function true global)
    (hy : y ∉ xs.flatMap Part.unlinked) : ∀ f, .function f ∈ xs → f.name ≠ y := by
  induction h generalizing s with
  | nil => simp
  | @cons t₁ t₂ t₃ x xs hx hxs ih =>
      intro f hf e
      rw [List.flatMap_cons, List.mem_append, not_or] at hy
      obtain ⟨s₁, hs₁, hb⟩ := hx.becomes hy.1 hs
      rcases List.mem_cons.1 hf with rfl | hf
      · have hname : f.name ∉ f.paramNames := fun hmem => hy.1 (by simpa [unlinked, ← e] using hmem)
        exact (hx.function_defined hname).2 s (by rw [e]; exact hs) global hd
      · exact ih ha.tail hs₁ (hb.defined hd) hy.2 f hf e

end Recorded

def definition? : Part → Option FunHeader
  | .function f => some f
  | _ => none

theorem mem_definitions : f ∈ xs.filterMap definition? ↔ .function f ∈ xs := by
  rw [List.mem_filterMap]
  constructor
  · rintro ⟨x, hx, hf⟩
    cases x with
    | function f' =>
        cases hf
        exact hx
    | _ => cases hf
  · exact fun h => ⟨_, h, rfl⟩

/-- No two functions that are defined have one name. -/
theorem Recorded.nodup_definitions (h : Recorded t xs u) (ha : Apart xs) :
    ((xs.filterMap definition?).map FunHeader.name).Nodup := by
  induction h with
  | nil => exact List.nodup_nil
  | @cons t₁ t₂ t₃ x xs hx hxs ih =>
      cases x with
      | function f =>
          have hname := ha.name_notMem_params List.mem_cons_self
          obtain ⟨global, hs⟩ := (hx.function_defined hname).1
          have hfirst : Apart ([] ++ .function f :: xs) := ha
          have hlater := hfirst.later (.inl (List.mem_singleton_self f.name))
          refine List.nodup_cons.2 ⟨fun hmem => ?_, ih ha.tail⟩
          obtain ⟨f', hf', e⟩ := List.mem_map.1 hmem
          exact hxs.function_notMem ha.tail hs rfl hlater f' (mem_definitions.1 hf') e
      | _ => exact ih ha.tail

end Part

end IntegerC
