import IntegerC.Proofs.Linking

set_option autoImplicit false

/-! # What all declarations of a name say together

A name with linkage can be declared many times, in blocks and at file scope. The entry that it gets
is made one declaration at a time, yet it says what all of them say together: their common type, the
linkage of the first one, the value of the one initializer. The declarations that do not fit each
other are those that a program is refused for.
-/

namespace IntegerC

/-! ## Declarations -/

/-- A declaration of a name with linkage: of a variable of the file scope, of an `extern` variable of
a block, or of a function, with its body if `body` holds. -/
inductive Declaration where
  | fileVar (d : VarDecl)
  | external (d : VarDecl)
  | function (h : FunHeader) (body : Bool)

namespace Declaration

def type : Declaration → CType
  | fileVar d | external d => .integer d.type
  | function h _ => h.type

def isStatic : Declaration → Bool
  | fileVar d | external d => d.storage = some .static
  | function h _ => h.storage = some .static

/-- Whether a declaration is one of a variable of the file scope that is neither `static` nor
`extern`. -/
def isPlain : Declaration → Bool
  | fileVar d => d.storage = none
  | _ => false

/-- Whether a declaration has an initializer at file scope, or a body. -/
def defines : Declaration → Bool
  | fileVar d => d.init.isSome
  | external _ => false
  | function _ body => body

/-- Whether a declaration is one of a variable of the file scope that is not `extern`. -/
def reserves : Declaration → Bool
  | fileVar d => d.storage ≠ some .external
  | _ => false

/-- Declarations of one name that do not fit each other. -/
inductive Conflicting : List Declaration → Prop
  | type {a b : Declaration} {ds : List Declaration} (ha : a ∈ ds) (hb : b ∈ ds)
      (h : a.type ≠ b.type) : Conflicting ds
  | defined {ds : List Declaration} (h : 2 ≤ ds.countP defines) : Conflicting ds
  | static {a b : Declaration} {ds : List Declaration} (ha : a.isStatic = false) (hb : b ∈ ds)
      (h : b.isStatic = true) : Conflicting (a :: ds)
  | plain {a b : Declaration} {ds : List Declaration} (ha : a.isStatic = true) (hb : b ∈ ds)
      (h : b.isPlain = true) : Conflicting (a :: ds)

variable {a b first : Declaration} {ds ds' rest : List Declaration}

theorem not_conflicting_nil : ¬ Conflicting [] := by
  intro h
  cases h with
  | type ha => cases ha
  | defined h => simp at h

/-- One declaration alone conflicts with nothing. -/
theorem not_conflicting_singleton (a : Declaration) : ¬ Conflicting [a] := by
  intro h
  cases h with
  | type ha hb h =>
      rw [List.mem_singleton] at ha hb
      exact h (by rw [ha, hb])
  | defined h =>
      have hlength := List.countP_le_length (p := defines) (l := [a])
      rw [List.length_singleton] at hlength
      omega
  | static _ hb | plain _ hb => cases hb

/-- More declarations do not make others fit. -/
theorem Conflicting.append (h : Conflicting ds) (ds' : List Declaration) :
    Conflicting (ds ++ ds') := by
  cases h with
  | type ha hb h => exact .type (List.mem_append_left _ ha) (List.mem_append_left _ hb) h
  | defined h =>
      refine .defined ?_
      rw [List.countP_append]
      omega
  | static ha hb h => exact .static ha (List.mem_append_left _ hb) h
  | plain ha hb h => exact .plain ha (List.mem_append_left _ hb) h

/-- What one more declaration asks for. -/
theorem conflicting_concat : Conflicting (first :: rest ++ [a]) ↔
    Conflicting (first :: rest) ∨ (∃ b ∈ first :: rest, b.type ≠ a.type) ∨
      (a.defines = true ∧ ∃ b ∈ first :: rest, b.defines = true) ∨
      (first.isStatic = false ∧ a.isStatic = true) ∨ (first.isStatic = true ∧ a.isPlain = true) := by
  have hlast : a ∈ first :: rest ++ [a] := List.mem_append_right _ (List.mem_singleton_self a)
  constructor
  · intro h
    by_cases hold : Conflicting (first :: rest)
    · exact .inl hold
    refine .inr ?_
    have hcases : ∀ b, b ∈ first :: rest ++ [a] → b ∈ first :: rest ∨ b = a := fun b hb =>
      (List.mem_append.1 hb).imp_right List.mem_singleton.1
    -- a conflict that is not among the earlier declarations has the last one in it
    cases h with
    | @type b c _ hb hc h =>
        rcases hcases b hb with hb' | rfl <;> rcases hcases c hc with hc' | rfl
        · exact absurd (.type hb' hc' h) hold
        · exact .inl ⟨b, hb', h⟩
        · exact .inl ⟨c, hc', h.symm⟩
        · exact absurd rfl h
    | defined h =>
        have hbefore : ¬ 2 ≤ (first :: rest).countP defines := fun h => hold (.defined h)
        rw [List.countP_append, List.countP_singleton] at h
        cases ha : a.defines with
        | false => simp [ha] at h; omega
        | true =>
            refine .inr (.inl ⟨rfl, List.countP_pos_iff.1 ?_⟩)
            simp only [ha, if_true] at h
            omega
    | @static _ b _ ha hb h =>
        rcases List.mem_append.1 hb with hb | hb
        · exact absurd (.static ha hb h) hold
        · exact .inr (.inr (.inl ⟨ha, List.mem_singleton.1 hb ▸ h⟩))
    | @plain _ b _ ha hb h =>
        rcases List.mem_append.1 hb with hb | hb
        · exact absurd (.plain ha hb h) hold
        · exact .inr (.inr (.inr ⟨ha, List.mem_singleton.1 hb ▸ h⟩))
  · rintro (h | ⟨b, hb, h⟩ | ⟨ha, hb⟩ | ⟨hf, ha⟩ | ⟨hf, ha⟩)
    · exact h.append [a]
    · exact .type (List.mem_append_left _ hb) hlast h
    · refine .defined ?_
      have hpos := List.countP_pos_iff.2 hb
      rw [List.countP_append, List.countP_singleton, if_pos ha]
      omega
    · exact .static hf (List.mem_append_right rest (List.mem_singleton_self a)) ha
    · exact .plain hf (List.mem_append_right rest (List.mem_singleton_self a)) ha

end Declaration

/-! ## Summaries -/

/-- The initial value that declarations of an object give it together: that of an initializer if
there is one, otherwise none unless a declaration reserves storage. -/
def InitialValue.Sums (ds : List Declaration) : InitialValue → Prop
  | .initial c => ∃ d e, .fileVar d ∈ ds ∧ d.init = some e ∧ d.staticValue e = .ok c
  | .tentative => (∀ a ∈ ds, a.defines = false) ∧ ∃ a ∈ ds, a.reserves = true
  | .absent => ∀ a ∈ ds, a.defines = false ∧ a.reserves = false

/-- The attributes that declarations give a name together, the first of which is `first`. -/
def Attributes.Sums (first : Declaration) (rest : List Declaration) : Attributes → Prop
  | .automatic => False
  | .static init global => init.Sums (first :: rest) ∧ global = !first.isStatic
  | .function defined global =>
      defined = (first :: rest).any Declaration.defines ∧ global = !first.isStatic

/-- An entry that says what declarations say together, the first of which is `first`. -/
structure Symbol.Sums (s : Symbol) (first : Declaration) (rest : List Declaration) : Prop where
  type : ∀ a ∈ first :: rest, a.type = s.type
  consistent : s.Consistent
  attributes : s.attributes.Sums first rest

/-- What is known of a name is what its declarations so far say, which fit each other. -/
inductive Declaration.Known : List Declaration → Option Symbol → Prop
  | new : Known [] none
  | summed {first : Declaration} {rest : List Declaration} {s : Symbol}
      (hfit : ¬ Conflicting (first :: rest)) (hs : s.Sums first rest) :
      Known (first :: rest) (some s)

/-! ## One declaration -/

namespace InitialValue

variable {i j k : InitialValue} {ds ds' : List Declaration}

/-- Merging what two groups of declarations say of an object gives what they say together. -/
theorem Sums.merge (hi : i.Sums ds) (hj : j.Sums ds') (h : i.merge j = some k) :
    k.Sums (ds ++ ds') := by
  have hleft : (∃ a ∈ ds, a.reserves = true) → ∃ a ∈ ds ++ ds', a.reserves = true :=
    fun ⟨a, ha, h⟩ => ⟨a, List.mem_append_left _ ha, h⟩
  have hright : (∃ a ∈ ds', a.reserves = true) → ∃ a ∈ ds ++ ds', a.reserves = true :=
    fun ⟨a, ha, h⟩ => ⟨a, List.mem_append_right _ ha, h⟩
  -- a value comes from one of the sides, and without one storage does
  cases i with
  | initial c =>
      obtain ⟨d, e, hd, hde⟩ := hi
      cases j <;> cases h
      all_goals exact ⟨d, e, List.mem_append_left _ hd, hde⟩
  | tentative =>
      cases j with
      | initial c =>
          cases h
          obtain ⟨d, e, hd, hde⟩ := hj
          exact ⟨d, e, List.mem_append_right _ hd, hde⟩
      | tentative =>
          cases h
          exact ⟨List.forall_mem_append.2 ⟨hi.1, hj.1⟩, hleft hi.2⟩
      | absent =>
          cases h
          exact ⟨List.forall_mem_append.2 ⟨hi.1, fun a ha => (hj a ha).1⟩, hleft hi.2⟩
  | absent =>
      cases h
      cases j with
      | initial c =>
          obtain ⟨d, e, hd, hde⟩ := hj
          exact ⟨d, e, List.mem_append_right _ hd, hde⟩
      | tentative =>
          exact ⟨List.forall_mem_append.2 ⟨fun a ha => (hi a ha).1, hj.1⟩, hright hj.2⟩
      | absent => exact List.forall_mem_append.2 ⟨hi, hj⟩

theorem Sums.defines {c : Constant} (h : (initial c).Sums ds) : ∃ a ∈ ds, a.defines = true := by
  obtain ⟨d, e, hd, he, -⟩ := h
  exact ⟨_, hd, by rw [Declaration.defines, he]; rfl⟩

/-- Only a value comes from an initializer. -/
theorem Sums.eq_initial (h : i.Sums ds) (hd : ∃ a ∈ ds, a.defines = true) : ∃ c, i = .initial c := by
  obtain ⟨a, ha, hdefines⟩ := hd
  cases i with
  | initial c => exact ⟨c, rfl⟩
  | tentative =>
      rw [h.1 a ha] at hdefines
      cases hdefines
  | absent =>
      rw [(h a ha).1] at hdefines
      cases hdefines

theorem merge_initial (c c' : Constant) : (initial c).merge (.initial c') = none := rfl

/-- Only two values do not go together. -/
theorem merge_eq_none (h : i.merge j = none) : (∃ c, i = .initial c) ∧ ∃ c, j = .initial c := by
  cases i <;> cases j <;> cases h
  exact ⟨⟨_, rfl⟩, _, rfl⟩

end InitialValue

/-- The initial value that one declaration at file scope gives by itself. -/
def VarDecl.ownInitial (d : VarDecl) : Option Constant → InitialValue
  | some c => .initial c
  | none => if d.storage = some .external then .absent else .tentative

/-- A further declaration of a static variable is compared with the entry by type, by linkage and
last by value. -/
theorem VarDecl.fileEntry_static (d : VarDecl) (value : Option Constant) (τ : CType)
    (i : InitialValue) (global : Bool) :
    d.fileEntry value (some ⟨τ, .static i global⟩) =
      if τ ≠ .integer d.type then .error ((Cause.conflictingType d.name τ).at d.span)
      else if d.storage ≠ some .external ∧ global ≠ (d.storage ≠ some .static : Bool) then
        .error ((Cause.conflictingLinkage d.name).at d.span)
      else
        match i.merge (d.ownInitial value) with
        | none => .error ((Cause.duplicateDefinition d.name).at d.span)
        | some merged => .ok ⟨.integer d.type, .static merged global⟩ := by
  cases value <;> rfl

/-- What a declaration is refused for names it. -/
theorem VarDecl.fileEntry_blames (d : VarDecl) (value : Option Constant) (old : Option Symbol) :
    Ensures (d.fileEntry value old) (fun f => f.cause.conflict? = some d.name) (fun _ => True) := by
  rcases old with _ | ⟨τ, _ | ⟨i, global⟩ | _⟩
  · exact .pure trivial
  · exact .error rfl
  · rw [fileEntry_static]
    refine .ite (fun _ => .error rfl) fun _ => .ite (fun _ => .error rfl) fun _ => ?_
    split
    · exact .error rfl
    · exact .pure trivial
  · exact .error rfl

/-- A conflict that a header reports names the function of the header. -/
theorem FunHeader.entry_blames (h : FunHeader) (body : Bool) (old : Option Symbol) :
    Ensures (h.entry body old) (fun f => f.cause.conflict? = some h.name) (fun _ => True) := by
  rcases old with _ | ⟨τ, _ | _ | ⟨defined, global⟩⟩
  · exact .pure trivial
  · exact .error rfl
  · exact .error rfl
  · exact .ite (fun _ => .error rfl) fun _ => .ite (fun _ => .error rfl) fun _ =>
      .ite (fun _ => .error rfl) fun _ => .pure trivial

namespace Declaration

variable {d : VarDecl} {h : FunHeader} {value : Option Constant} {old : Option Symbol} {s : Symbol}
  {first a : Declaration} {ds rest : List Declaration}

/-- The initial value of a single declaration sums up that declaration. -/
theorem sums_ownInitial (hv : d.staticValue? = .ok value) :
    (d.ownInitial value).Sums [.fileVar d] := by
  unfold VarDecl.staticValue? at hv
  cases hd : d.init with
  | none =>
      rw [hd] at hv
      cases hv
      by_cases hs : d.storage = some .external
      · simp [VarDecl.ownInitial, InitialValue.Sums, defines, reserves, hd, hs]
      · simp [VarDecl.ownInitial, InitialValue.Sums, defines, reserves, hd, hs]
  | some e =>
      rw [hd] at hv
      obtain ⟨c, hc, rfl⟩ := map_eq_ok.1 hv
      exact ⟨d, e, List.mem_singleton_self _, hd, hc⟩

/-- A declaration that fits, after which the entry says what it adds. -/
theorem Known.concat (hfit : ¬ Conflicting (first :: rest))
    (htype : ∀ b ∈ first :: rest, b.type = s.type)
    (ha : a.type = s.type) (hc : s.Consistent) (hs : s.attributes.Sums first (rest ++ [a]))
    (hdefines : a.defines = true → ∀ b ∈ first :: rest, b.defines = false)
    (hstatic : a.isStatic = true → first.isStatic = true)
    (hplain : a.isPlain = true → first.isStatic = false) :
    Known (first :: rest ++ [a]) (some s) := by
  refine .summed (fun hconflict => ?_) ⟨?_, hc, hs⟩
  · rcases conflicting_concat.1 hconflict with h | ⟨b, hb, h⟩ | ⟨ha, b, hb, h⟩ | ⟨hf, ha⟩ | ⟨hf, ha⟩
    · exact hfit h
    · exact h ((htype b hb).trans ha.symm)
    · rw [hdefines ha b hb] at h
      cases h
    · rw [hstatic ha] at hf
      cases hf
    · rw [hplain ha] at hf
      cases hf
  · exact List.forall_mem_append.2 ⟨htype, by simpa using ha⟩

/-- A declaration of another type does not fit. -/
theorem Known.conflicting_of_type (hk : Known ds (some s)) (ha : a.type ≠ s.type) :
    Conflicting (ds ++ [a]) := by
  cases hk with
  | @summed first rest _ _ hs =>
      refine conflicting_concat.2 (.inr (.inl ⟨first, List.mem_cons_self, fun e => ha ?_⟩))
      exact e.symm.trans (hs.type first List.mem_cons_self)

/-- A declaration at file scope adds to the entry what it says, unless it does not fit. -/
theorem Known.fileVar (hk : Known ds old) (hv : d.staticValue? = .ok value) :
    Ensures (d.fileEntry value old) (fun _ => Conflicting (ds ++ [.fileVar d]))
      (fun s => Known (ds ++ [.fileVar d]) (some s)) := by
  have hown := sums_ownInitial hv
  cases hk with
  | new =>
      refine .pure (.summed (not_conflicting_singleton _) ⟨by simp [type], trivial, hown, ?_⟩)
      simp [isStatic]
  | @summed first rest old hfit hold =>
      have hknown := Known.summed hfit hold
      obtain ⟨τ, a⟩ := old
      have hattributes := hold.attributes
      cases a with
      | automatic => exact hattributes.elim
      | function defined global =>
          refine .error (hknown.conflicting_of_type fun e => ?_)
          have hc := hold.consistent
          rw [← show CType.integer d.type = τ from e] at hc
          exact hc
      | static i global =>
          obtain ⟨hi, rfl⟩ := hattributes
          rw [VarDecl.fileEntry_static]
          refine .ite (fun hτ => .error (hknown.conflicting_of_type fun e => hτ e.symm))
            fun hτ => .ite (fun hl => .error (conflicting_concat.2 ?_)) fun hl => ?_
          · -- the linkage differs from that of the first declaration
            obtain ⟨hexternal, hl⟩ := hl
            cases hs : d.storage with
            | none =>
                refine .inr (.inr (.inr (.inr ⟨?_, by simp [isPlain, hs]⟩)))
                simpa [hs] using hl
            | some st =>
                cases st with
                | static =>
                    refine .inr (.inr (.inr (.inl ⟨?_, by simp [isStatic, hs]⟩)))
                    simpa [hs] using hl
                | external => exact absurd hs hexternal
          · split
            · rename_i hmerge
              obtain ⟨⟨c, rfl⟩, c', hc'⟩ := InitialValue.merge_eq_none hmerge
              rw [hc'] at hown
              refine .error (conflicting_concat.2 (.inr (.inr (.inl ⟨?_, hi.defines⟩))))
              simpa using hown.defines
            · rename_i merged hmerge
              obtain rfl : τ = .integer d.type := Decidable.not_not.1 hτ
              refine .pure (Known.concat hfit hold.type rfl trivial ⟨hi.merge hown hmerge, rfl⟩
                (fun hd b hb => Bool.eq_false_iff.2 fun hb' => ?_) (fun hs => ?_) fun hp => ?_)
              · obtain ⟨c, rfl⟩ := hi.eq_initial ⟨b, hb, hb'⟩
                obtain ⟨c', hc'⟩ := hown.eq_initial ⟨_, List.mem_singleton_self _, hd⟩
                rw [hc', InitialValue.merge_initial] at hmerge
                cases hmerge
              · have hstatic : d.storage = some .static := by simpa [isStatic] using hs
                simpa [hstatic] using hl
              · have hnone : d.storage = none := by simpa [isPlain] using hp
                simpa [hnone] using hl

/-- So does a declaration of a function. -/
theorem Known.function (hk : Known ds old) (body : Bool) :
    Ensures (h.entry body old) (fun _ => Conflicting (ds ++ [.function h body]))
      (fun s => Known (ds ++ [.function h body]) (some s)) := by
  cases hk with
  | new =>
      refine .pure (.summed (not_conflicting_singleton _) ⟨by simp [type], trivial, ?_⟩)
      simp [Attributes.Sums, defines, isStatic]
  | @summed first rest old hfit hold =>
      have hknown := Known.summed hfit hold
      obtain ⟨τ, a⟩ := old
      have hattributes := hold.attributes
      cases a with
      | automatic => exact hattributes.elim
      | static i global =>
          refine .error (hknown.conflicting_of_type fun e => ?_)
          have hc := hold.consistent
          rw [← show h.type = τ from e] at hc
          exact hc
      | function defined global =>
          obtain ⟨rfl, rfl⟩ := hattributes
          -- the entry sums up the declarations so far, so each comparison with it finds one of them
          rw [FunHeader.entry]
          refine .ite (fun hτ => .error (hknown.conflicting_of_type fun e => hτ e.symm))
            fun hτ => .ite (fun hd => .error (conflicting_concat.2 ?_)) fun hd =>
              .ite (fun hl => .error (conflicting_concat.2 ?_)) fun hl => ?_
          · rw [Bool.and_eq_true, List.any_eq_true] at hd
            exact .inr (.inr (.inl ⟨hd.2, hd.1⟩))
          · refine .inr (.inr (.inr (.inl ?_)))
            simpa [isStatic] using hl
          · obtain rfl : τ = h.type := Decidable.not_not.1 hτ
            refine .pure (Known.concat hfit hold.type rfl trivial ⟨?_, rfl⟩
              (fun hb b hmem => Bool.eq_false_iff.2 fun hb' => ?_) (fun hs => ?_) nofun)
            · show _ = (first :: rest ++ [Declaration.function h body]).any defines
              rw [List.any_append]
              simp [defines]
            · refine hd ?_
              rw [Bool.and_eq_true, List.any_eq_true]
              exact ⟨⟨b, hmem, hb'⟩, hb⟩
            · simpa [isStatic, show h.storage = some .static by simpa [isStatic] using hs] using hl

/-- An `extern` variable of a block adds nothing to an entry of its type. -/
theorem Known.external (hk : Known ds (some s)) (hs : d.storage = some .external)
    (hτ : s.type = .integer d.type) : Known (ds ++ [.external d]) (some s) := by
  cases hk with
  | @summed first rest _ hfit hold =>
      refine Known.concat hfit hold.type hτ.symm hold.consistent ?_ nofun (fun h => ?_) nofun
      · obtain ⟨τ, a⟩ := s
        have hattributes := hold.attributes
        cases a with
        | automatic => exact hattributes.elim
        | static i global =>
            obtain ⟨hi, hglobal⟩ := hattributes
            refine ⟨?_, hglobal⟩
            have hnone : InitialValue.absent.Sums [.external d] := by
              simp [InitialValue.Sums, defines, reserves]
            refine hi.merge hnone ?_
            cases i <;> rfl
        | function defined global =>
            obtain ⟨hdefined, hglobal⟩ := hattributes
            refine ⟨?_, hglobal⟩
            show _ = (first :: rest ++ [Declaration.external d]).any defines
            rw [List.any_append, hdefined]
            simp [defines]
      · simp [isStatic, hs] at h

theorem Known.external_new (hk : Known ds none) (hs : d.storage = some .external) :
    Known (ds ++ [.external d]) (some ⟨.integer d.type, .static .absent true⟩) := by
  cases hk with
  | new =>
      refine .summed (not_conflicting_singleton _) ⟨by simp [type], trivial, ?_⟩
      simp [Attributes.Sums, InitialValue.Sums, defines, reserves, isStatic, hs]

end Declaration

/-! ## Parts -/

namespace Part

/-- The declaration of the name `y` that a part is, if it declares it with linkage. -/
def declaration? (y : String) : Part → Option Declaration
  | .fileVar d => if d.name = y then some (.fileVar d) else none
  | .var d => if d.name = y ∧ d.storage = some .external then some (.external d) else none
  | .prototype h => if h.name = y then some (.function h false) else none
  | .function h => if h.name = y then some (.function h true) else none
  | _ => none

variable {t u : SymbolTable} {x : Part} {xs : List Part} {y : String} {f : Fault}
  {ds : List Declaration}

theorem mem_linked_of_declaration? {a : Declaration} (h : x.declaration? y = some a) :
    y ∈ x.linked := by
  cases x <;> simp only [declaration?, Option.ite_none_right_eq_some, reduceCtorEq] at h
  all_goals simp [linked, h]

/-- What is known of a name grows by what a part declares. -/
theorem Records.summed (h : x.Records t u) (hy : y ∉ x.unlinked)
    (hk : Declaration.Known ds (t.find? y)) :
    Declaration.Known (ds ++ (x.declaration? y).toList) (u.find? y) := by
  -- a part that puts an entry for `n` into the table
  have hput : ∀ (n : String) (s : Symbol) (a : Declaration),
      x.declaration? y = (if n = y then some a else none) →
      (n = y → Declaration.Known (ds ++ [a]) (some s)) →
      Declaration.Known (ds ++ (x.declaration? y).toList) (Table.find? (t.put n s) y) := by
    intro n s a hx hs
    rw [hx]
    by_cases e : n = y
    · subst e
      rw [if_pos rfl, Table.find?_put_self]
      exact hs rfl
    · rw [if_neg e, Table.find?_put_of_ne _ _ (Ne.symm e)]
      simpa using hk
  have hother : ∀ (n : String) (s : Symbol), y ≠ n → x.declaration? y = none →
      Declaration.Known (ds ++ (x.declaration? y).toList) (Table.find? (t.put n s) y) := by
    intro n s e hx
    rw [hx, Table.find?_put_of_ne _ _ e]
    simpa using hk
  cases h with
  | span | loop | expr => simpa [declaration?] using hk
  | fileVar hv hs =>
      exact hput _ _ _ rfl fun e => (hk.fileVar hv).ok_of_eq (e ▸ hs)
  | @external d hs hi hnew =>
      refine hput _ _ (.external d) (by simp [declaration?, hs]) fun e => ?_
      rw [← e, hnew] at hk
      exact hk.external_new hs
  | @known d old hs hi hold hτ =>
      by_cases e : d.name = y
      · subst e
        rw [hold] at hk ⊢
        simpa [declaration?, hs] using hk.external hs hτ
      · simpa [declaration?, e] using hk
  | @static d _ hs | @automatic d hs =>
      have hne : y ≠ d.name := by simpa [unlinked, hs] using hy
      exact hother _ _ hne (by simp [declaration?, hs])
  | prototype hs => exact hput _ _ _ rfl fun e => (hk.function false).ok_of_eq (e ▸ hs)
  | function hs =>
      rw [SymbolTable.find?_withParams hy]
      exact hput _ _ _ rfl fun e => (hk.function true).ok_of_eq (e ▸ hs)

/-- Parts that record what they declare take the declarations known of a name to those declarations
followed by their own. -/
theorem Recorded.summed (h : Recorded t xs u) (hy : y ∉ xs.flatMap unlinked)
    (hk : Declaration.Known ds (t.find? y)) :
    Declaration.Known (ds ++ xs.filterMap (declaration? y)) (u.find? y) := by
  induction h generalizing ds with
  | nil => simpa using hk
  | @cons t u v x xs hx _ ih =>
      rw [List.flatMap_cons, List.mem_append, not_or] at hy
      have hrest := ih hy.2 (hx.summed hy.1 hk)
      rw [List.append_assoc] at hrest
      rw [List.filterMap_cons]
      cases hd : x.declaration? y <;> simpa [hd] using hrest

/-- A part is refused if it declares a name in a way that does not fit the declarations before. -/
theorem Refuses.conflicting (h : x.Refuses t f) (hf : f.cause.conflict? = some y)
    (hk : Declaration.Known ds (t.find? y)) :
    ∃ a, x.declaration? y = some a ∧ Declaration.Conflicting (ds ++ [a]) := by
  cases h with
  | @fileVar d value _ hv hs =>
      have hname := (d.fileEntry_blames value _).bad_of_eq hs
      obtain rfl : d.name = y := Option.some.inj (hname.symm.trans hf)
      exact ⟨_, if_pos rfl, (hk.fileVar hv).bad_of_eq hs⟩
  | @external d old hs hold hτ =>
      obtain rfl : d.name = y := Option.some.inj hf
      rw [hold] at hk
      exact ⟨_, if_pos ⟨rfl, hs⟩, hk.conflicting_of_type fun e => hτ e.symm⟩
  | @prototype h _ hs =>
      have hname := (h.entry_blames false _).bad_of_eq hs
      obtain rfl : h.name = y := Option.some.inj (hname.symm.trans hf)
      exact ⟨_, if_pos rfl, (hk.function false).bad_of_eq hs⟩
  | @function h _ hs =>
      have hname := (h.entry_blames true _).bad_of_eq hs
      obtain rfl : h.name = y := Option.some.inj (hname.symm.trans hf)
      exact ⟨_, if_pos rfl, (hk.function true).bad_of_eq hs⟩

/-- If parts are refused for a conflict about a name, then the declarations of the name do not fit
each other: those known before and those among the parts. -/
theorem Refused.conflicting (h : Refused t xs f) (hf : f.cause.conflict? = some y)
    (hy : y ∉ xs.flatMap unlinked) (hk : Declaration.Known ds (t.find? y)) :
    Declaration.Conflicting (ds ++ xs.filterMap (declaration? y)) := by
  induction h generalizing ds with
  | @here t x xs f hx =>
      obtain ⟨a, ha, hconflicting⟩ := hx.conflicting hf hk
      rw [List.filterMap_cons, ha]
      simpa using hconflicting.append (xs.filterMap (declaration? y))
  | @later t u x xs f hx _ ih =>
      rw [List.flatMap_cons, List.mem_append, not_or] at hy
      have hrest := ih hf hy.2 (hx.summed hy.1 hk)
      rw [List.append_assoc] at hrest
      rw [List.filterMap_cons]
      cases hd : x.declaration? y <;> simpa [hd] using hrest

/-- Only a name with linkage can be in conflict. -/
theorem Refuses.mem_linked (h : x.Refuses t f) (hf : f.cause.conflict? = some y) :
    y ∈ x.linked := by
  obtain ⟨τ, hτ⟩ : ∃ n, f.cause.conflict? = some n ∧ n ∈ x.linked := by
    cases h with
    | @fileVar d value _ hv hs =>
        exact ⟨_, (d.fileEntry_blames value _).bad_of_eq hs, List.mem_singleton_self _⟩
    | external hs => exact ⟨_, rfl, by simp [linked, hs]⟩
    | @prototype h _ hs =>
        exact ⟨_, (h.entry_blames false _).bad_of_eq hs, List.mem_singleton_self _⟩
    | @function h _ hs =>
        exact ⟨_, (h.entry_blames true _).bad_of_eq hs, List.mem_singleton_self _⟩
  obtain rfl : τ = y := Option.some.inj (hτ.1.symm.trans hf)
  exact hτ.2

/-- A conflict names something with linkage that the refused parts declare. -/
theorem Refused.mem_linked (h : Refused t xs f) (hf : f.cause.conflict? = some y) :
    y ∈ xs.flatMap linked := by
  rw [List.mem_flatMap]
  induction h with
  | here hx => exact ⟨_, List.mem_cons_self, hx.mem_linked hf⟩
  | later _ _ ih =>
      obtain ⟨x, hx, hy⟩ := ih hf
      exact ⟨x, List.mem_cons_of_mem _ hx, hy⟩

end Part

/-! ## Programs -/

/-- In a table without repeated names the static variable of a name is the one of its entry. -/
theorem ThreeAddress.mem_staticVars_iff_of_find? {t : SymbolTable} (hn : t.names.Nodup) {y : String}
    {s : Symbol} (hs : t.find? y = some s) {v : StaticVar} :
    (v ∈ staticVars t ∧ v.name = y) ↔ StaticVar.ofSymbol? y s = some v := by
  rw [mem_staticVars]
  constructor
  · rintro ⟨⟨⟨n, s'⟩, hmem, hv⟩, rfl⟩
    obtain rfl : v.name = n := (StaticVar.exists_static hv).1
    obtain rfl : s' = s := Option.some.inj ((Table.find?_of_mem hn hmem).symm.trans hs)
    exact hv
  · exact fun hv => ⟨⟨_, Table.mem_of_find?_eq_some hs, hv⟩, (StaticVar.exists_static hv).1⟩

namespace Program

/-- The declarations with linkage of the name `y` in a program, in their order. -/
def declarations (p : Program) (y : String) : List Declaration :=
  p.parts.filterMap (Part.declaration? y)

theorem mem_linked_of_declarations {p : Program} {y : String} {a : Declaration}
    (h : a ∈ p.declarations y) : y ∈ p.parts.flatMap Part.linked := by
  obtain ⟨x, hx, ha⟩ := List.mem_filterMap.1 h
  exact List.mem_flatMap.2 ⟨x, hx, Part.mem_linked_of_declaration? ha⟩

/-- Where no name is declared both with and without linkage, a program is refused for a name only if
its declarations do not fit each other. If none is, the entry of a name says what they say
together. -/
theorem check_summary {p : Program} (h : Part.Apart p.parts) :
    Ensures (p.check [])
      (fun f => ∀ y, f.cause.conflict? = some y → Declaration.Conflicting (p.declarations y))
      (fun c => ∀ y,
        Declaration.Known (p.declarations y) (c.2.find? y) ∨ p.declarations y = []) := by
  refine (p.check_follows []).mono (fun f hf y hy => ?_) fun c hc y => ?_
  · rcases hf with hf | hf
    · rw [Fault.Unconflicting, hy] at hf
      cases hf
    · show Declaration.Conflicting ([] ++ p.parts.filterMap (Part.declaration? y))
      exact hf.conflicting hy (h.linked y (hf.mem_linked hy)) .new
  · cases hds : p.declarations y with
    | nil => exact .inr rfl
    | cons a ds =>
        have hlinked : y ∈ p.parts.flatMap Part.linked :=
          mem_linked_of_declarations (hds ▸ List.mem_cons_self)
        have hknown := hc.summed (h.linked y hlinked) .new
        rw [List.nil_append] at hknown
        exact .inl (hds ▸ hknown)

/-- A program that is read is refused for a name only if the declarations of the name do not fit
each other. If none is, they fit, and the entry of the name says what they say together, as does the
static variable in the code, if there is one. -/
theorem summary_of_text {text : String} {ts : List Token} {tree r l : Program}
    (hts : tokens text = .ok ts) (htree : Program.ofTokens ts = .ok tree)
    (hr : tree.resolve = .ok r) (hl : l = r ∨ r.nameLoops = .ok l) :
    Ensures (l.check [])
      (fun f => ∀ y, f.cause.conflict? = some y → Declaration.Conflicting (l.declarations y))
      (fun c => ∀ y, ¬ Declaration.Conflicting (l.declarations y) ∧
        ∀ first rest, l.declarations y = first :: rest →
          ∃ s, c.2.find? y = some s ∧ s.Sums first rest ∧
            (r.nameLoops = .ok l → ∀ code, ThreeAddress.Program.ofChecked c.1 c.2 = .ok code →
              ∀ v, (.static v ∈ code.1.topLevels ∧ v.name = y) ↔
                ThreeAddress.StaticVar.ofSymbol? y s = some v)) := by
  obtain ⟨hi, hresolved⟩ := (resolve_ensures (allRead_of_text hts htree)).ok_of_eq hr
  have hapart : Part.Apart l.parts := by
    rcases hl with rfl | hl
    · exact .of_resolved hresolved
    · exact .of_resolved (((nameLoops_ensures hresolved.read).ok_of_eq hl).1.resolved hresolved)
  cases hq : l.check [] with
  | error f => exact (check_summary hapart).bad_of_eq hq
  | ok c =>
    intro y
    rcases (check_summary hapart).ok_of_eq hq y with hknown | hnone
    -- the entry under a name sums up its declarations, if it has any
    · generalize hds : l.declarations y = ds, hfind : c.2.find? y = found at hknown
      cases hknown with
      | new => exact ⟨Declaration.not_conflicting_nil, nofun⟩
      | @summed first rest s hfit hs =>
        refine ⟨hfit, fun _ _ e => ?_⟩
        cases e
        refine ⟨s, rfl, hs, fun hloops code hcode v => ?_⟩
        have hp := validated_of_text hts htree hr hloops hq
        obtain ⟨_, htargets⟩ := hp.loops
        rw [← Decl.loops_of_elaborate hp.elaborates.2] at htargets
        obtain ⟨fs, temps, hlinks⟩ :=
          ThreeAddress.Program.ofChecked_links hp.checked htargets hcode
        rw [hlinks.topLevels,
          ← ThreeAddress.mem_staticVars_iff_of_find? (hp.recorded.nodup List.nodup_nil) hfind]
        simp
    · rw [hnone]
      exact ⟨Declaration.not_conflicting_nil, nofun⟩

/-- The text of a variable and a function with four declarations each. -/
def redeclaredText : String :=
  "static int x; int f(void); int g(void) \x7b extern int x; int f(void); return x + f(); \x7d " ++
    "static int x = 3 + 4; int f(void) \x7b return x; \x7d extern int x; int f(void);"

theorem summary_of_redeclaredText :
    ∃ ts tree r l, tokens redeclaredText = .ok ts ∧ Program.ofTokens ts = .ok tree ∧
      tree.resolve = .ok r ∧ r.nameLoops = .ok l ∧
      ((l.check []).toOption.map fun c => (c.2.find? "x", c.2.find? "f")) =
        some (some ⟨.integer .int, .static (.initial ⟨.int, 7⟩) false⟩,
          some ⟨.function [] .int, .function true true⟩) ∧
      (l.declarations "x").length = 4 ∧ (l.declarations "f").length = 4 ∧
      Ensures (l.check [])
        (fun f => ∀ y, f.cause.conflict? = some y → Declaration.Conflicting (l.declarations y))
        (fun c => ∀ y, ¬ Declaration.Conflicting (l.declarations y) ∧
          ∀ first rest, l.declarations y = first :: rest →
            ∃ s, c.2.find? y = some s ∧ s.Sums first rest ∧
              (r.nameLoops = .ok l → ∀ code, ThreeAddress.Program.ofChecked c.1 c.2 = .ok code →
                ∀ v, (.static v ∈ code.1.topLevels ∧ v.name = y) ↔
                  ThreeAddress.StaticVar.ofSymbol? y s = some v)) := by
  have hchars : redeclaredText.toList = _ :=
    toList_append_eq String.toList_ofList String.toList_ofList
  have h : ((tokens redeclaredText).toOption.bind fun ts =>
      (Program.ofTokens ts).toOption.bind fun tree => tree.resolve.toOption.bind fun r =>
        r.nameLoops.toOption.bind fun l =>
          some ((l.check []).toOption.map fun c => (c.2.find? "x", c.2.find? "f"),
            (l.declarations "x").length, (l.declarations "f").length)) =
      some (some (some ⟨.integer .int, .static (.initial ⟨.int, 7⟩) false⟩,
        some ⟨.function [] .int, .function true true⟩), 4, 4) := by
    rw [tokens, hchars]
    decide +kernel
  obtain ⟨ts, hts, h⟩ := toOption_bind_eq_some.1 h
  obtain ⟨tree, htree, h⟩ := toOption_bind_eq_some.1 h
  obtain ⟨r, hr, h⟩ := toOption_bind_eq_some.1 h
  obtain ⟨l, hl, h⟩ := toOption_bind_eq_some.1 h
  simp only [Option.some.injEq, Prod.mk.injEq] at h
  exact ⟨ts, tree, r, l, hts, htree, hr, hl, h.1, h.2.1, h.2.2,
    summary_of_text hts htree hr (.inr hl)⟩

end Program

end IntegerC
