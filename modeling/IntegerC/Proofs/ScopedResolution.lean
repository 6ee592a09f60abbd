import IntegerC.Proofs.Compilation
import IntegerC.Proofs.Scoping

set_option autoImplicit false

/-! # Resolving names keeps the rules of scoping

Resolving names succeeds exactly on the programs that keep the rules of scoping, and then its output
keeps them too, with unique names for all locals. The bindings of the resolver are read in two ways:
as the entries of the scopes in the program that it reads, and of those in the program that it
writes. One lemma for each function of the resolver compares the outcome with both.
-/

namespace IntegerC

/-! ## Bindings as entries -/

namespace Scope

/-- The scopes as the program has them before its names are resolved. -/
def source (s : Scope) : Scopes := s.map (·.map fun e => ⟨e.1, e.2.linkage⟩)

/-- The scopes as the program has them after its names are resolved. -/
def target (s : Scope) : Scopes := s.map (·.map fun e => ⟨e.2.name, e.2.linkage⟩)

@[simp] theorem source_enter (s : Scope) : source ([] :: s) = [] :: s.source := rfl

@[simp] theorem target_enter (s : Scope) : target ([] :: s) = [] :: s.target := rfl

@[simp] theorem source_bind (s : Scope) (x : String) (b : Binding) :
    (s.bind x b).source = s.source.declare ⟨x, b.linkage⟩ := by
  cases s <;> rfl

@[simp] theorem target_bind (s : Scope) (x : String) (b : Binding) :
    (s.bind x b).target = s.target.declare ⟨b.name, b.linkage⟩ := by
  cases s <;> rfl

@[simp] theorem tail_bind (s : Scope) (x : String) (b : Binding) : (s.bind x b).tail = s.tail := by
  cases s <;> rfl

/-- Bindings that the resolver makes: each to a name made of the bound word, and of one word in one
scope several only if all have linkage. -/
structure Sound (s : Scope) : Prop where
  word : ∀ frame ∈ s, ∀ e ∈ frame, stem e.2.name = e.1
  repeats : ∀ frame ∈ s, frame.Pairwise fun e e' =>
    e.1 = e'.1 → e.2.linkage = true ∧ e'.2.linkage = true

theorem mem_of_lookup_eq_some {frame : Frame} {x : String} {b : Binding}
    (h : frame.lookup x = some b) : (x, b) ∈ frame := by
  obtain ⟨l, r, rfl, -⟩ := List.lookup_eq_some_iff.1 h
  simp

/-- If the latest binding of a word in a scope has linkage, then every earlier one has it. -/
theorem linkage_of_lookup {x : String} {b : Binding} (hb : b.linkage = true) {frame : Frame}
    (hr : frame.Pairwise fun e e' => e.1 = e'.1 → e.2.linkage = true ∧ e'.2.linkage = true)
    (h : frame.lookup x = some b) : ∀ e ∈ frame, e.1 = x → e.2.linkage = true := by
  induction frame with
  | nil => simp
  | cons e' frame ih =>
      obtain ⟨hfirst, hrest⟩ := List.pairwise_cons.1 hr
      obtain ⟨y, b'⟩ := e'
      intro e he hex
      rw [List.lookup_cons] at h
      -- the first binding of the name speaks for all later ones
      by_cases hy : x = y
      · subst hy
        obtain rfl : b' = b := by simpa using h
        rcases List.mem_cons.1 he with rfl | he
        · exact hb
        · exact (hfirst e he hex.symm).2
      · have hy' : (x == y) = false := by simpa using hy
        rw [hy'] at h
        rcases List.mem_cons.1 he with rfl | he
        · exact absurd hex.symm hy
        · exact ih hrest h e he hex

/-- Entries that stand for bindings are found as the bindings are. -/
theorem visible?_map {word : String → String} {g : String × Binding → Entry} (x : String) :
    ∀ s : Scope, (∀ frame ∈ s, ∀ e ∈ frame, word (g e).name = e.1) →
      Scopes.visible? word (s.map (·.map g)) x = (s.find? x).map fun b => g (x, b) := by
  intro s hg
  -- within a frame first, then frame by frame
  have hframe : ∀ frame : Frame, (∀ e ∈ frame, word (g e).name = e.1) →
      (frame.map g).find? (fun d => decide (word d.name = x)) =
        (frame.lookup x).map fun b => g (x, b) := by
    intro frame h
    induction frame with
    | nil => rfl
    | cons e frame ih =>
        obtain ⟨he, hframe⟩ := List.forall_mem_cons.1 h
        obtain ⟨y, b⟩ := e
        rw [List.map_cons, List.find?_cons, he, List.lookup_cons, ih hframe]
        by_cases hx : y = x
        · subst hx
          simp
        · have hx' : (x == y) = false := by simpa using Ne.symm hx
          simp [hx, hx']
  induction s with
  | nil => rfl
  | cons frame s ih =>
      obtain ⟨hf, hs⟩ := List.forall_mem_cons.1 hg
      have ih := ih hs
      rw [Scopes.visible?] at ih ⊢
      rw [List.map_cons, List.findSome?_cons, hframe frame hf, ih, find?, find?,
        List.findSome?_cons]
      cases frame.lookup x <;> rfl

theorem uses_source {s : Scope} {x : String} :
    s.source.Uses id x ↔ (s.find? x).isSome = true := by
  rw [Scopes.Uses, source, id, visible?_map x s fun _ _ _ _ => rfl]
  cases s.find? x <;> simp

namespace Sound

variable {s : Scope}

theorem enter (h : s.Sound) : Sound ([] :: s) where
  word := List.forall_mem_cons.2 ⟨by simp, h.word⟩
  repeats := List.forall_mem_cons.2 ⟨.nil, h.repeats⟩

theorem stem_of_find? (h : s.Sound) {x : String} {b : Binding} (hb : s.find? x = some b) :
    stem b.name = x := by
  obtain ⟨frame, hframe, hlookup⟩ := List.exists_of_findSome?_eq_some hb
  exact h.word frame hframe (x, b) (mem_of_lookup_eq_some hlookup)

theorem uses_target (h : s.Sound) {x : String} {b : Binding} (hb : s.find? x = some b) :
    s.target.Uses stem b.name := by
  rw [Scopes.Uses, target, visible?_map _ s h.word, h.stem_of_find? hb, hb]
  rfl

/-- Whether a scope may get one more declaration is seen at the latest binding of its word. -/
theorem allows_map (h : s.Sound) {word : String → String} {g : String × Binding → Entry}
    (hg : ∀ frame ∈ s, ∀ e ∈ frame, word (g e).name = e.1 ∧ (g e).linked = e.2.linkage)
    {d : Entry} :
    Scopes.Allows word (s.map (·.map g)) d ↔
      ∀ b ∈ s.findInner? (word d.name), b.linkage = true ∧ d.linked = true := by
  cases s with
  | nil => simp [Scopes.Allows, findInner?]
  | cons frame s =>
      have hframe := hg frame List.mem_cons_self
      have hpairs : frame.Pairwise _ := h.repeats frame List.mem_cons_self
      simp only [Scopes.Allows, findInner?, List.map_cons, List.head?_cons, Option.getD_some,
        List.forall_mem_map, Option.mem_def]
      constructor
      · intro hall b hb
        obtain ⟨hname, hlinked⟩ := hframe _ (mem_of_lookup_eq_some hb)
        have hboth := hall _ (mem_of_lookup_eq_some hb) hname
        exact ⟨hlinked ▸ hboth.1, hboth.2⟩
      · intro hall e he hword
        obtain ⟨hname, hlinked⟩ := hframe e he
        rw [hname] at hword
        cases hb : frame.lookup (word d.name) with
        | none =>
            have hne := List.lookup_eq_none_iff.1 hb e he
            simp [hword] at hne
        | some b =>
            obtain ⟨hlinkage, hd⟩ := hall b hb
            exact ⟨hlinked ▸ linkage_of_lookup hlinkage hpairs hb e he hword, hd⟩

theorem allows_source (h : s.Sound) {d : Entry} :
    s.source.Allows id d ↔ ∀ b ∈ s.findInner? d.name, b.linkage = true ∧ d.linked = true :=
  h.allows_map fun _ _ _ _ => ⟨rfl, rfl⟩

theorem allows_target (h : s.Sound) {d : Entry} :
    s.target.Allows stem d ↔ ∀ b ∈ s.findInner? (stem d.name), b.linkage = true ∧ d.linked = true :=
  h.allows_map fun frame hframe e he => ⟨h.word frame hframe e he, rfl⟩

/-- A declaration that is allowed leaves the bindings sound. -/
theorem bind (h : s.Sound) {x : String} {b : Binding} (hb : stem b.name = x)
    (ha : s.source.Allows id ⟨x, b.linkage⟩) : (s.bind x b).Sound := by
  cases s with
  | nil => exact ⟨by simp [Scope.bind, hb], by simp [Scope.bind]⟩
  | cons frame s =>
      obtain ⟨hword, hwords⟩ := List.forall_mem_cons.1 h.word
      obtain ⟨hrep, hreps⟩ := List.forall_mem_cons.1 h.repeats
      refine ⟨List.forall_mem_cons.2 ⟨List.forall_mem_cons.2 ⟨hb, hword⟩, hwords⟩,
        List.forall_mem_cons.2 ⟨List.pairwise_cons.2 ⟨fun e he hx => ?_, hrep⟩, hreps⟩⟩
      have hmem : (⟨e.1, e.2.linkage⟩ : Entry) ∈ (source (frame :: s)).head?.getD [] :=
        List.mem_map_of_mem he
      exact (ha _ hmem hx.symm).symm

/-- A name that may be declared in the source may be declared under its new spelling. -/
theorem allows_of_source (h : s.Sound) {x y : String} {l : Bool} (hy : stem y = x)
    (ha : s.source.Allows id ⟨x, l⟩) : s.target.Allows stem ⟨y, l⟩ := by
  rw [h.allows_source] at ha
  rw [h.allows_target]
  simpa only [hy] using ha

end Sound

/-- The scopes `s'` are those of `s` after declarations in the innermost scope, which lead to `σ` in
the source and to `τ` in the target. -/
structure Leads (s s' : Scope) (σ τ : Scopes) : Prop where
  source : s'.source = σ
  target : s'.target = τ
  tail : s'.tail = s.tail
  sound : s'.Sound

theorem Leads.refl {s : Scope} (h : s.Sound) : s.Leads s s.source s.target := ⟨rfl, rfl, rfl, h⟩

theorem Sound.leads_bind {s : Scope} (h : s.Sound) {x : String} {b : Binding} (hb : stem b.name = x)
    (ha : s.source.Allows id ⟨x, b.linkage⟩) :
    s.Leads (s.bind x b) (s.source.declare ⟨x, b.linkage⟩) (s.target.declare ⟨b.name, b.linkage⟩) :=
  ⟨by simp, by simp, by simp, h.bind hb ha⟩

end Scope

/-! ## Outcomes -/

/-- In the scopes `s`, the tree `a` keeps the rules of scoping and `a'` keeps them after resolving,
and dropping the numbers of names takes `a'` back to `a`. -/
structure ScopedAs {α : Type} (rules : (String → String) → Scopes → α → Prop)
    (mapNames : (String → String) → α → α) (s : Scope) (a a' : α) : Prop where
  source : rules id s.source a
  target : rules stem s.target a'
  names : mapNames stem a' = a

/-- What refuses a part refuses the whole. -/
theorem Ensures.refuse {α : Type} {r : Except Fault α} {A B : Prop} {ok : α → Prop}
    (h : Ensures r (fun _ => ¬ A) ok) (hAB : B → A) : Ensures r (fun _ => ¬ B) ok :=
  h.mono (fun _ hA hB => hA (hAB hB)) fun _ => id

theorem Expr.isVar_mapNames (f : String → String) (e : Expr) :
    (e.mapNames f).isVar = e.isVar := by
  cases e <;> rfl

/-! ## Expressions -/

mutual
/-- An expression is refused where a name is bound in no scope or where the target of an assignment
is no variable, as the rules of scoping say. -/
theorem Expr.resolve_scoped {s : Scope} (hs : s.Sound) :
    (e : Expr) → Ensures (e.resolve s) (fun _ => ¬ e.Scoped id s.source)
      (ScopedAs Expr.Scoped Expr.mapNames s e)
  | .constant n c => by
      rw [resolve]
      exact .pure ⟨trivial, trivial, rfl⟩
  | .var n x => by
      rw [resolve]
      split
      · rename_i b hb
        refine .pure ⟨Scope.uses_source.2 (by rw [hb]; rfl), hs.uses_target hb, ?_⟩
        rw [mapNames, hs.stem_of_find? hb]
      · rename_i hb
        refine .error fun h => ?_
        rw [Expr.Scoped, Scope.uses_source, hb] at h
        cases h
  | .cast n t a => by
      rw [resolve]
      refine (resolve_scoped hs a).bind fun a' ha => .pure ⟨ha.source, ha.target, ?_⟩
      rw [mapNames, ha.names]
  | .unary n op a => by
      rw [resolve]
      refine (resolve_scoped hs a).bind fun a' ha => .pure ⟨ha.source, ha.target, ?_⟩
      rw [mapNames, ha.names]
  | .binary n op a b => by
      rw [resolve]
      refine ((resolve_scoped hs a).refuse And.left).bind fun a' ha => ?_
      refine ((resolve_scoped hs b).refuse And.right).bind fun b' hb => .pure ?_
      refine ⟨⟨ha.source, hb.source⟩, ⟨ha.target, hb.target⟩, ?_⟩
      rw [mapNames, ha.names, hb.names]
  | .assignment n a b => by
      rw [resolve]
      refine ((resolve_scoped hs a).refuse And.left).bind fun a' ha => ?_
      refine ((resolve_scoped hs b).refuse fun h => h.2.1).bind fun b' hb => ?_
      -- the target is looked at after its names are replaced, which keeps its form
      have hvar : a.isVar = a'.isVar := by rw [← ha.names, isVar_mapNames]
      split
      · rename_i h
        refine .pure ⟨⟨ha.source, hb.source, hvar.trans h⟩, ⟨ha.target, hb.target, h⟩, ?_⟩
        rw [mapNames, ha.names, hb.names]
      · rename_i h
        exact .error fun hall => h (hvar ▸ hall.2.2)
  | .conditional n a b c => by
      rw [resolve]
      refine ((resolve_scoped hs a).refuse And.left).bind fun a' ha => ?_
      refine ((resolve_scoped hs b).refuse fun h => h.2.1).bind fun b' hb => ?_
      refine ((resolve_scoped hs c).refuse fun h => h.2.2).bind fun c' hc => .pure ?_
      refine ⟨⟨ha.source, hb.source, hc.source⟩, ⟨ha.target, hb.target, hc.target⟩, ?_⟩
      rw [mapNames, ha.names, hb.names, hc.names]
  | .call n f es => by
      rw [resolve]
      refine ((resolveAll_scoped hs es).refuse And.left).bind fun es' hes => ?_
      split
      · rename_i b hb
        refine .pure ⟨⟨hes.source, Scope.uses_source.2 (by rw [hb]; rfl)⟩,
          ⟨hes.target, hs.uses_target hb⟩, ?_⟩
        rw [mapNames, hes.names, hs.stem_of_find? hb]
      · rename_i hb
        refine .error fun h => ?_
        have hf := Scope.uses_source.1 h.2
        rw [hb] at hf
        cases hf
termination_by structural e => e

theorem Expr.resolveAll_scoped {s : Scope} (hs : s.Sound) :
    (es : List Expr) → Ensures (resolveAll s es) (fun _ => ¬ Expr.AllScoped id s.source es)
      (ScopedAs Expr.AllScoped Expr.mapAllNames s es)
  | [] => by
      rw [resolveAll]
      exact .pure ⟨trivial, trivial, rfl⟩
  | e :: es => by
      rw [resolveAll]
      refine ((resolve_scoped hs e).refuse And.left).bind fun e' he => ?_
      refine ((resolveAll_scoped hs es).refuse And.right).bind fun es' hes => .pure ?_
      refine ⟨⟨he.source, hes.source⟩, ⟨he.target, hes.target⟩, ?_⟩
      rw [mapAllNames, he.names, hes.names]
termination_by structural es => es
end

/-! ## Words of the text -/

mutual
/-- The words of the text have no numbers to drop. -/
theorem Expr.mapNames_stem :
    (e : Expr) → (∀ a ∈ e.postorder, a.Proper) → e.mapNames stem = e
  | .constant n c, _ => rfl
  | .var n x, h => by
      have hx : Plain x := h _ List.mem_cons_self
      rw [mapNames, stem_of_plain hx]
  | .cast n t a, h => by
      rw [postorder, List.forall_mem_append] at h
      rw [mapNames, mapNames_stem a h.1]
  | .unary n op a, h => by
      rw [postorder, List.forall_mem_append] at h
      rw [mapNames, mapNames_stem a h.1]
  | .binary n op a b, h => by
      rw [postorder, List.forall_mem_append, List.forall_mem_append] at h
      rw [mapNames, mapNames_stem a h.1.1, mapNames_stem b h.1.2]
  | .assignment n a b, h => by
      rw [postorder, List.forall_mem_append, List.forall_mem_append] at h
      rw [mapNames, mapNames_stem a h.1.1, mapNames_stem b h.1.2]
  | .conditional n a b c, h => by
      rw [postorder, List.forall_mem_append, List.forall_mem_append, List.forall_mem_append] at h
      rw [mapNames, mapNames_stem a h.1.1.1, mapNames_stem b h.1.1.2, mapNames_stem c h.1.2]
  | .call n f es, h => by
      rw [postorder, List.forall_mem_append, List.forall_mem_singleton] at h
      have hf : Plain f := h.2
      rw [mapNames, mapAllNames_stem es h.1, stem_of_plain hf]
termination_by structural e => e

theorem Expr.mapAllNames_stem :
    (es : List Expr) → (∀ a ∈ postorderAll es, a.Proper) → mapAllNames stem es = es
  | [], _ => rfl
  | e :: es, h => by
      rw [postorderAll, List.forall_mem_append] at h
      rw [mapAllNames, mapNames_stem e h.1, mapAllNames_stem es h.2]
termination_by structural es => es
end

section

variable {m : LineMap}

theorem VarDecl.mapNames_stem {d : VarDecl} (h : (Part.fileVar d).Written m) :
    d.mapNames stem = d := by
  have hname : Plain d.name := h.declared _ List.mem_cons_self
  have hinit : d.init.map (Expr.mapNames stem) = d.init := by
    cases hi : d.init with
    | none => rfl
    | some e =>
        rw [Option.map_some, e.mapNames_stem (h.exprs e (by simp [Part.exprs, hi]))]
  rw [mapNames, stem_of_plain hname, hinit]

/-! ## Declarations -/

namespace Resolver

variable {α : Type}

/-- A computation in a scope of its own leaves the scopes around it as they were. -/
theorem inScope_scoped {x : Resolver α} {r : Resolution} {bad : Fault → Prop} {q : α → Prop}
    (h : ∀ r', r'.scope = [] :: r.scope →
      Ensures (x.run r') bad (fun o => q o.1 ∧ o.2.scope.tail = r.scope)) :
    Ensures ((inScope x).run r) bad (fun o => q o.1 ∧ o.2.scope = r.scope) := by
  rw [inScope]
  refine .run_modify ?_
  refine (h { r with scope := [] :: r.scope } rfl).run_bind fun a r₂ ha => ?_
  exact .run_modify (.run_pure ha)

theorem expr_scoped {e : Expr} (r : Resolution) (hs : r.scope.Sound) :
    Ensures ((expr e).run r) (fun _ => ¬ e.Scoped id r.scope.source)
      (fun o => ScopedAs Expr.Scoped Expr.mapNames r.scope e o.1 ∧ o.2 = r) :=
  .run_lift_last ((Expr.resolve_scoped hs e).imp fun _ he => ⟨he, rfl⟩)

theorem optionalExpr_scoped {o : Option Expr} (r : Resolution) (hs : r.scope.Sound) :
    Ensures ((optionalExpr o).run r) (fun _ => ¬ Expr.OptionScoped id r.scope.source o)
      (fun u => ScopedAs Expr.OptionScoped (fun f => Option.map (Expr.mapNames f)) r.scope o u.1 ∧
        u.2 = r) := by
  cases o with
  | none => exact .run_pure ⟨⟨by simp [Expr.OptionScoped], by simp [Expr.OptionScoped], rfl⟩, rfl⟩
  | some e =>
      refine .run_map (((expr_scoped r hs).refuse fun h => h e rfl).imp fun u h => ?_)
      obtain ⟨he, hr⟩ := h
      refine ⟨⟨by simpa [Expr.OptionScoped] using he.source,
        by simpa [Expr.OptionScoped] using he.target, ?_⟩, hr⟩
      rw [Option.map_some, he.names]

/-- A name with linkage is declared as it is. -/
theorem declareLinked_scoped {x : String} {bad : Fault → Prop} (r : Resolution)
    (hs : r.scope.Sound) (hx : Plain x) (ha : r.scope.source.Allows id ⟨x, true⟩) :
    Ensures ((declareLinked x).run r) bad
      (fun o => r.scope.Leads o.2.scope (r.scope.source.declare ⟨x, true⟩)
        (r.scope.target.declare ⟨x, true⟩)) :=
  Ensures.pure (hs.leads_bind (b := ⟨x, true⟩) (stem_of_plain hx) ha)

/-- A name without linkage is declared under a name made of it. -/
theorem declareUnique_scoped {x : String} {bad : Fault → Prop} (r : Resolution)
    (hs : r.scope.Sound) (ha : r.scope.source.Allows id ⟨x, false⟩) :
    Ensures ((declareUnique x).run r) bad
      (fun o => stem o.1 = x ∧ r.scope.Leads o.2.scope (r.scope.source.declare ⟨x, false⟩)
        (r.scope.target.declare ⟨o.1, false⟩)) :=
  Ensures.pure ⟨stem_numbered x r.given,
    hs.leads_bind (b := ⟨numbered x r.given, false⟩) (stem_numbered x r.given) ha⟩

/-- A variable with linkage leads to the entry under its own name, and another one to a fresh entry
that shadows what is bound around it. -/
theorem localVar_scoped {d : VarDecl} (r : Resolution) (hs : r.scope.Sound)
    (hw : (Part.var d).Written m) :
    Ensures ((localVar d).run r) (fun _ => ¬ d.Scoped id r.scope.source)
      (fun o => ScopedAs VarDecl.Scoped VarDecl.mapNames r.scope d o.1 ∧
        r.scope.Leads o.2.scope (r.scope.source.declare d.entry)
          (r.scope.target.declare o.1.entry)) := by
  have hw := Part.written_var.1 hw
  rw [localVar]
  refine .run_get ?_
  dsimp only
  refine .run_ite (fun hclash => .run_throw fun h => ?_) fun hclash => ?_
  · -- a clash is a binding that the rules do not let be repeated
    have ha := hs.allows_source.1 h.1
    cases hb : r.scope.findInner? d.name with
    | none => simp [hb] at hclash
    | some b => simp_all [VarDecl.entry]
  have ha : r.scope.source.Allows id d.entry := by
    rw [hs.allows_source]
    intro b hb
    change r.scope.findInner? d.name = some b at hb
    simpa [VarDecl.entry, hb] using hclash
  -- an `extern` variable has linkage, any other one does not
  refine .run_ite (fun hext => ?_) fun hext => ?_
  · have hentry : d.entry = ⟨d.name, true⟩ := by simp [VarDecl.entry, hext]
    have hname : Plain d.name := hw.declared _ List.mem_cons_self
    rw [hentry] at ha ⊢
    refine (declareLinked_scoped r hs hname ha).run_bind fun _ r₁ h₁ => .run_pure ?_
    refine ⟨⟨⟨hentry ▸ ha, fun h => absurd hext h⟩, ⟨?_, fun h => absurd hext h⟩,
      VarDecl.mapNames_stem hw⟩, hentry ▸ h₁⟩
    exact hentry ▸ hs.allows_of_source (stem_of_plain hname) ha
  · have hentry : d.entry = ⟨d.name, false⟩ := by simp [VarDecl.entry, hext]
    rw [hentry] at ha ⊢
    refine (declareUnique_scoped r hs ha).run_bind fun name r₁ h => ?_
    obtain ⟨hname, h₁⟩ := h
    refine ((optionalExpr_scoped r₁ h₁.sound).refuse fun h => ?_).run_bind
      fun init r₂ h => .run_pure ?_
    · rw [h₁.source, ← hentry]
      exact h.2 hext
    · obtain ⟨hi, hr⟩ := h
      dsimp only at hi hr h₁ ⊢
      subst hr
      have hentry' : ({ d with name := name, init := init } : VarDecl).entry = ⟨name, false⟩ := by
        simp [VarDecl.entry, hext]
      refine ⟨⟨⟨hentry ▸ ha, fun _ => ?_⟩,
        ⟨hentry' ▸ hs.allows_of_source hname ha, fun _ => ?_⟩, ?_⟩, hentry' ▸ h₁⟩
      · rw [hentry, ← h₁.source]
        exact hi.source
      · rw [hentry', ← h₁.target]
        exact hi.target
      · rw [VarDecl.mapNames, hi.names, hname]

/-- A parameter is allowed where no other one of its name stands before it. -/
theorem param_scoped {q : Param} (r : Resolution) (hs : r.scope.Sound) :
    Ensures ((param q).run r) (fun _ => ¬ r.scope.source.Allows id ⟨q.name, false⟩)
      (fun o => r.scope.source.Allows id ⟨q.name, false⟩ ∧ o.1.mapName stem = q ∧
        r.scope.Leads o.2.scope (r.scope.source.declare ⟨q.name, false⟩)
          (r.scope.target.declare ⟨o.1.name, false⟩)) := by
  have hiff : r.scope.source.Allows id ⟨q.name, false⟩ ↔
      ¬ (r.scope.findInner? q.name).isSome = true := by
    rw [hs.allows_source]
    cases r.scope.findInner? q.name <;> simp
  rw [param]
  refine .run_get ?_
  refine .run_ite (fun hc => .run_throw fun h => hiff.1 h hc) fun hc => ?_
  have ha := hiff.2 hc
  refine (declareUnique_scoped r hs ha).run_bind fun name r₁ h => .run_pure ?_
  obtain ⟨hname, h₁⟩ := h
  refine ⟨ha, ?_, h₁⟩
  dsimp only at hname
  rw [Param.mapName, hname]

/-- Parameters of a function share one scope, so every one of them must be allowed behind the
others. -/
theorem params_scoped (ps : List Param) :
    ∀ r : Resolution, r.scope.Sound →
      Ensures ((params ps).run r) (fun _ => ¬ Param.AllScoped id r.scope.source ps)
        (fun o => ScopedAs Param.AllScoped (fun f => List.map (Param.mapName f)) r.scope ps o.1 ∧
          r.scope.Leads o.2.scope (Param.after r.scope.source ps)
            (Param.after r.scope.target o.1)) := by
  induction ps with
  | nil =>
      intro r hs
      exact .run_pure ⟨⟨trivial, trivial, rfl⟩, .refl hs⟩
  | cons q ps ih =>
      intro r hs
      rw [params]
      refine ((param_scoped r hs).refuse And.left).run_bind fun q' r₁ h => ?_
      obtain ⟨ha, hq, h₁⟩ := h
      dsimp only at hq h₁
      -- the later parameters are resolved in the scope with the earlier ones
      refine ((ih r₁ h₁.sound).refuse fun h => ?_).run_bind fun ps' r₂ h => .run_pure ?_
      · rw [h₁.source]
        exact h.2
      · obtain ⟨hps, h₂⟩ := h
        dsimp only at hps h₂ ⊢
        have hname : stem q'.name = q.name := congrArg Param.name hq
        refine ⟨⟨⟨ha, ?_⟩, ⟨hs.allows_of_source hname ha, ?_⟩, ?_⟩,
          ⟨?_, ?_, h₂.tail.trans h₁.tail, h₂.sound⟩⟩
        · rw [← h₁.source]
          exact hps.source
        · rw [← h₁.target]
          exact hps.target
        · rw [List.map_cons, hq, hps.names]
        · rw [h₂.source, h₁.source]
          rfl
        · rw [h₂.target, h₁.target]
          rfl

/-- The name of a function keeps its spelling, and the entry of an earlier declaration with
linkage. -/
theorem functionName_scoped {h : FunHeader} (r : Resolution) (hs : r.scope.Sound)
    (hname : Plain h.name) :
    Ensures ((functionName h).run r) (fun _ => ¬ r.scope.source.Allows id ⟨h.name, true⟩)
      (fun o => r.scope.source.Allows id ⟨h.name, true⟩ ∧
        r.scope.Leads o.2.scope (r.scope.source.declare ⟨h.name, true⟩)
          (r.scope.target.declare ⟨h.name, true⟩)) := by
  rw [functionName]
  refine .run_get ?_
  dsimp only
  refine .run_ite (fun hclash => .run_throw fun ha => ?_) fun hclash => ?_
  · rw [hs.allows_source] at ha
    cases hb : r.scope.findInner? h.name with
    | none => simp [hb] at hclash
    | some b => simp_all
  · have ha : r.scope.source.Allows id ⟨h.name, true⟩ := by
      rw [hs.allows_source]
      intro b hb
      change r.scope.findInner? h.name = some b at hb
      simpa [hb] using hclash
    exact (declareLinked_scoped r hs hname ha).imp fun o ho => ⟨ha, ho⟩

/-- The name and the parameters of a function. Behind them stand the scopes of its body, and around
these the scopes with its name. -/
theorem header_scoped {h : FunHeader} (r : Resolution) (hs : r.scope.Sound)
    (hname : Plain h.name) {r₁ : Resolution} (ha : r.scope.source.Allows id ⟨h.name, true⟩)
    (h₁ : r.scope.Leads r₁.scope (r.scope.source.declare ⟨h.name, true⟩)
      (r.scope.target.declare ⟨h.name, true⟩)) {r' : Resolution} (hr' : r'.scope = [] :: r₁.scope) :
    Ensures ((params h.params).run r') (fun _ => ¬ h.Scoped id r.scope.source)
      (fun o => ScopedAs FunHeader.Scoped FunHeader.mapNames r.scope h { h with params := o.1 } ∧
        r'.scope.Leads o.2.scope (h.inside r.scope.source)
          (({ h with params := o.1 } : FunHeader).inside r.scope.target)) := by
  have hsource : r'.scope.source = [] :: r.scope.source.declare ⟨h.name, true⟩ := by
    rw [hr', Scope.source_enter, h₁.source]
  have htarget : r'.scope.target = [] :: r.scope.target.declare ⟨h.name, true⟩ := by
    rw [hr', Scope.target_enter, h₁.target]
  have hparams := params_scoped h.params r' (hr' ▸ h₁.sound.enter)
  rw [hsource, htarget] at hparams
  refine (hparams.refuse fun hall => hall.2).imp fun o h => ?_
  obtain ⟨hps, h₂⟩ := h
  refine ⟨⟨⟨ha, ?_⟩, ⟨?_, ?_⟩, ?_⟩, h₂⟩
  · rw [← hsource]
    exact hps.source
  · exact hs.allows_of_source (stem_of_plain hname) ha
  · show Param.AllScoped stem ([] :: r.scope.target.declare ⟨h.name, true⟩) o.1
    rw [← htarget]
    exact hps.target
  · have hmap : o.1.map (Param.mapName stem) = h.params := hps.names
    rw [FunHeader.mapNames, stem_of_plain hname, hmap]

theorem prototype_scoped {h : FunHeader} (r : Resolution) (hs : r.scope.Sound)
    (hw : (Part.prototype h).Written m) :
    Ensures ((prototype h).run r) (fun _ => ¬ h.Scoped id r.scope.source)
      (fun o => ScopedAs FunHeader.Scoped FunHeader.mapNames r.scope h o.1 ∧
        r.scope.Leads o.2.scope (r.scope.source.declare ⟨h.name, true⟩)
          (r.scope.target.declare ⟨o.1.name, true⟩)) := by
  have hname : Plain h.name := hw.declared _ List.mem_cons_self
  rw [prototype]
  refine ((functionName_scoped r hs hname).refuse And.left).run_bind fun _ r₁ h => ?_
  obtain ⟨ha, h₁⟩ := h
  dsimp only at h₁
  refine (inScope_scoped (r := r₁) (q := fun h' => h'.name = h.name ∧
    ScopedAs FunHeader.Scoped FunHeader.mapNames r.scope h h') fun r' hr' => ?_).imp ?_
  · refine (header_scoped r hs hname ha h₁ hr').run_bind fun ps r₂ h => .run_pure ?_
    obtain ⟨hh, h₂⟩ := h
    exact ⟨⟨rfl, hh⟩, h₂.tail.trans (by rw [hr', List.tail_cons])⟩
  · rintro ⟨h', r₂⟩ ⟨⟨hh, hscoped⟩, hr₂⟩
    dsimp only at hh hr₂ ⊢
    exact ⟨hscoped, by rwa [hr₂, hh]⟩

/-! ## Statements -/

/-- A declaration at the head of a loop leads to scopes with one more name, an expression to the
same scopes. -/
theorem forInit_scoped {i : ForInit} (r : Resolution) (hs : r.scope.Sound)
    (hw : Part.AllWritten m i.parts) :
    Ensures ((forInit i).run r) (fun _ => ¬ i.Scoped id r.scope.source)
      (fun o => ScopedAs ForInit.Scoped ForInit.mapNames r.scope i o.1 ∧
        r.scope.Leads o.2.scope (i.after r.scope.source) (o.1.after r.scope.target)) := by
  cases i with
  | nothing => exact .run_pure ⟨⟨trivial, trivial, rfl⟩, .refl hs⟩
  | decl d =>
      rw [forInit]
      refine .run_ite (fun hst => .run_throw fun h => ?_) fun hst => ?_
      · rw [ForInit.Scoped, ← Option.isNone_iff_eq_none] at h
        simp_all
      · have hnone : d.storage = none := by simpa using hst
        refine ((localVar_scoped r hs (hw _ List.mem_cons_self)).refuse And.right).run_bind
          fun d' r₁ h => .run_pure ?_
        obtain ⟨hd, h₁⟩ := h
        dsimp only at hd h₁ ⊢
        have hstorage : d'.storage = d.storage := by
          rw [← hd.names]
          rfl
        refine ⟨⟨⟨hnone, hd.source⟩, ⟨hstorage.trans hnone, hd.target⟩, ?_⟩, h₁⟩
        rw [ForInit.mapNames, hd.names]
  | expr e =>
      refine (expr_scoped r hs).run_bind fun e' r₁ h => .run_pure ?_
      obtain ⟨he, hr⟩ := h
      dsimp only at he hr ⊢
      subst hr
      refine ⟨⟨he.source, he.target, ?_⟩, .refl hs⟩
      rw [ForInit.mapNames, he.names]

/-- Resolving the names of a statement refuses what breaks the rules of scoping, and leaves the
scopes as they were. -/
def StmtScoped (m : LineMap) (s : Stmt) : Prop :=
  ∀ r : Resolution, r.scope.Sound → Part.AllWritten m s.parts →
    Ensures ((stmt s).run r) (fun _ => ¬ s.Scoped id r.scope.source)
      (fun o => ScopedAs Stmt.Scoped Stmt.mapNames r.scope s o.1 ∧ o.2.scope = r.scope)

theorem ifElse_scoped {s : Span} {e : Expr} {yes no : Stmt} (hyes : StmtScoped m yes)
    (hno : StmtScoped m no) : StmtScoped m (.ifElse s e yes no) := by
  intro r hs hw
  rw [stmt]
  simp only [Stmt.parts, Part.allWritten_cons, Part.allWritten_append] at hw
  refine ((expr_scoped r hs).refuse And.left).run_bind fun e' r₁ h => ?_
  obtain ⟨he, hr⟩ := h
  subst hr
  refine ((hyes _ hs hw.2.2.1).refuse fun h => h.2.1).run_bind fun yes' r₂ h => ?_
  obtain ⟨hy, hr₂⟩ := h
  dsimp only at hy hr₂
  -- the first arm leaves the scopes as they were
  have hno := hno r₂ (hr₂ ▸ hs) hw.2.2.2
  rw [hr₂] at hno
  refine (hno.refuse fun h => h.2.2).run_bind fun no' r₃ h => .run_pure ?_
  obtain ⟨hn, hr₃⟩ := h
  refine ⟨⟨⟨he.source, hy.source, hn.source⟩, ⟨he.target, hy.target, hn.target⟩, ?_⟩, hr₃⟩
  rw [Stmt.mapNames, he.names, hy.names, hn.names]

theorem doLoop_scoped {s : Span} {l : Option String} {body : Stmt} {e : Expr}
    (hbody : StmtScoped m body) : StmtScoped m (.doLoop s l body e) := by
  intro r hs hw
  rw [stmt]
  simp only [Stmt.parts, Part.allWritten_cons, Part.allWritten_append] at hw
  refine ((hbody r hs hw.2.2.1).refuse And.right).run_bind fun body' r₁ h => ?_
  obtain ⟨hb, hr₁⟩ := h
  dsimp only at hb hr₁
  -- the body leaves the scopes as they were, so the condition stands in the same ones
  have hexpr := expr_scoped (e := e) r₁ (hr₁ ▸ hs)
  rw [hr₁] at hexpr
  refine (hexpr.refuse And.left).run_bind fun e' r₂ h => .run_pure ?_
  obtain ⟨he, hr₂⟩ := h
  refine ⟨⟨⟨he.source, hb.source⟩, ⟨he.target, hb.target⟩, ?_⟩, ?_⟩
  · rw [Stmt.mapNames, he.names, hb.names]
  · exact (congrArg Resolution.scope hr₂).trans hr₁

/-- The head of a loop opens a scope. Conditions and body are resolved inside, and the scopes around
are left as they are. -/
theorem forLoop_scoped {s : Span} {l : Option String} {init : ForInit} {e post : Option Expr}
    {body : Stmt} (hbody : StmtScoped m body) :
    StmtScoped m (.forLoop s l init e post body) := by
  intro r hs hw
  rw [stmt]
  simp only [Stmt.parts, Part.allWritten_cons, Part.allWritten_append] at hw
  obtain ⟨-, -, hi, -, -, hb⟩ := hw
  refine inScope_scoped (q := fun s' =>
    ScopedAs Stmt.Scoped Stmt.mapNames r.scope (.forLoop s l init e post body) s') ?_
  intro r' hr'
  have hinit := forInit_scoped r' (hr' ▸ hs.enter) hi
  rw [hr', Scope.source_enter, Scope.target_enter] at hinit
  refine (hinit.refuse And.left).run_bind fun init' r₁ h => ?_
  obtain ⟨hi', h₁⟩ := h
  dsimp only at hi' h₁
  -- from here on everything stands in the scopes behind the header's declaration
  have hscopes := h₁.source
  refine ((optionalExpr_scoped r₁ h₁.sound).refuse fun h => ?_).run_bind
    fun e' r₂ h => ?_
  · rw [hscopes]
    exact h.2.1
  obtain ⟨he, hr₂⟩ := h
  subst hr₂
  refine ((optionalExpr_scoped _ h₁.sound).refuse fun h => ?_).run_bind
    fun post' r₃ h => ?_
  · rw [hscopes]
    exact h.2.2.1
  obtain ⟨hp, hr₃⟩ := h
  subst hr₃
  refine ((hbody _ h₁.sound hb).refuse fun h => ?_).run_bind
    fun body' r₄ h => .run_pure ?_
  · rw [hscopes]
    exact h.2.2.2
  obtain ⟨hbody, hr₄⟩ := h
  dsimp only at he hp hbody hr₄ ⊢
  refine ⟨⟨⟨hi'.source, ?_, ?_, ?_⟩, ⟨hi'.target, ?_, ?_, ?_⟩, ?_⟩, ?_⟩
  · rw [← hscopes]; exact he.source
  · rw [← hscopes]; exact hp.source
  · rw [← hscopes]; exact hbody.source
  · rw [← h₁.target]; exact he.target
  · rw [← h₁.target]; exact hp.target
  · rw [← h₁.target]; exact hbody.target
  · rw [Stmt.mapNames, hi'.names, he.names, hp.names, hbody.names]
  · rw [hr₄, h₁.tail, List.tail_cons]

mutual
/-- The scopes behind a statement are those before it: what a block declares ends with the block. -/
theorem stmt_scoped : (s : Stmt) → StmtScoped m s
  | .ret s e, r, hs, hw => by
      rw [stmt]
      refine (expr_scoped r hs).run_bind fun e' r₁ h => .run_pure ?_
      obtain ⟨he, hr⟩ := h
      subst hr
      exact ⟨⟨he.source, he.target, by rw [Stmt.mapNames, he.names]⟩, rfl⟩
  | .expr s e, r, hs, hw => by
      rw [stmt]
      refine (expr_scoped r hs).run_bind fun e' r₁ h => .run_pure ?_
      obtain ⟨he, hr⟩ := h
      subst hr
      exact ⟨⟨he.source, he.target, by rw [Stmt.mapNames, he.names]⟩, rfl⟩
  | .ifThen s e yes, r, hs, hw => by
      rw [stmt]
      simp only [Stmt.parts, Part.allWritten_cons] at hw
      refine ((expr_scoped r hs).refuse And.left).run_bind fun e' r₁ h => ?_
      obtain ⟨he, hr⟩ := h
      subst hr
      refine ((stmt_scoped yes _ hs hw.2.2).refuse And.right).run_bind
        fun yes' r₂ h => .run_pure ?_
      obtain ⟨hy, hr₂⟩ := h
      refine ⟨⟨⟨he.source, hy.source⟩, ⟨he.target, hy.target⟩, ?_⟩, hr₂⟩
      rw [Stmt.mapNames, he.names, hy.names]
  | .ifElse s e yes no, r, hs, hw => ifElse_scoped (stmt_scoped yes) (stmt_scoped no) r hs hw
  | .block s is, r, hs, hw => by
      rw [stmt]
      simp only [Stmt.parts, Part.allWritten_cons] at hw
      -- the items are resolved in a new scope, which is dropped behind them
      refine Ensures.run_bind (inScope_scoped (q := fun is' =>
        ScopedAs Item.AllScoped Item.mapAllNames ([] :: r.scope) is is') fun r' hr' => ?_)
        fun is' r₁ h => .run_pure ?_
      · have hitems := items_scoped is r' (hr' ▸ hs.enter) hw.2
        rw [hr'] at hitems
        exact hitems.refuse id
      · obtain ⟨his, hr₁⟩ := h
        exact ⟨⟨his.source, his.target, by rw [Stmt.mapNames, his.names]⟩, hr₁⟩
  | .breakLoop s l, r, hs, _ | .continueLoop s l, r, hs, _ | .null s, r, hs, _ =>
      .run_pure ⟨⟨trivial, trivial, rfl⟩, rfl⟩
  | .whileLoop s l e body, r, hs, hw => by
      rw [stmt]
      simp only [Stmt.parts, Part.allWritten_cons] at hw
      refine ((expr_scoped r hs).refuse And.left).run_bind fun e' r₁ h => ?_
      obtain ⟨he, hr⟩ := h
      subst hr
      refine ((stmt_scoped body _ hs hw.2.2.2).refuse And.right).run_bind
        fun body' r₂ h => .run_pure ?_
      obtain ⟨hb, hr₂⟩ := h
      refine ⟨⟨⟨he.source, hb.source⟩, ⟨he.target, hb.target⟩, ?_⟩, hr₂⟩
      rw [Stmt.mapNames, he.names, hb.names]
  | .doLoop s l body e, r, hs, hw => doLoop_scoped (stmt_scoped body) r hs hw
  | .forLoop s l init e post body, r, hs, hw => forLoop_scoped (stmt_scoped body) r hs hw
termination_by structural s => s

/-- An item leads to the scopes that its declaration makes. -/
theorem item_scoped :
    (i : Item) → ∀ r : Resolution, r.scope.Sound → Part.AllWritten m i.parts →
      Ensures ((item i).run r) (fun _ => ¬ i.Scoped id r.scope.source)
        (fun o => ScopedAs Item.Scoped Item.mapNames r.scope i o.1 ∧
          r.scope.Leads o.2.scope (i.after r.scope.source) (o.1.after r.scope.target))
  | .stmt s, r, hs, hw => by
      rw [item]
      refine (stmt_scoped s r hs hw).run_bind fun s' r₁ h => .run_pure ?_
      obtain ⟨hst, hr₁⟩ := h
      dsimp only at hst hr₁ ⊢
      refine ⟨⟨hst.source, hst.target, by rw [Item.mapNames, hst.names]⟩, ?_⟩
      rw [hr₁]
      exact .refl hs
  | .decl (.var d), r, hs, hw => by
      rw [item]
      refine (localVar_scoped r hs (hw _ List.mem_cons_self)).run_bind
        fun d' r₁ h => .run_pure ?_
      obtain ⟨hd, h₁⟩ := h
      refine ⟨⟨hd.source, hd.target, ?_⟩, h₁⟩
      rw [Item.mapNames, Decl.mapNames, hd.names]
  | .decl (.prototype f), r, hs, hw => by
      rw [item]
      refine .run_ite (fun hst => .run_throw fun h => h.1 hst) fun hst => ?_
      refine ((prototype_scoped r hs (hw _ List.mem_cons_self)).refuse And.right).run_bind
        fun f' r₁ h => .run_pure ?_
      obtain ⟨hf, h₁⟩ := h
      dsimp only at hf h₁ ⊢
      -- dropping the numbers of names does not touch the storage class
      have hstorage : f'.storage = f.storage := by
        rw [← hf.names]
        rfl
      refine ⟨⟨⟨hst, hf.source⟩, ⟨hstorage ▸ hst, hf.target⟩, ?_⟩, h₁⟩
      rw [Item.mapNames, Decl.mapNames, hf.names]
  | .decl (.function f s body), r, hs, hw => by
      rw [item]
      exact .run_throw fun h => h
termination_by structural i => i

/-- Items of a block are resolved each behind the declarations of those before it. The scopes around
the block stay. -/
theorem items_scoped :
    (is : List Item) → ∀ r : Resolution, r.scope.Sound → Part.AllWritten m (Item.allParts is) →
      Ensures ((items is).run r) (fun _ => ¬ Item.AllScoped id r.scope.source is)
        (fun o => ScopedAs Item.AllScoped Item.mapAllNames r.scope is o.1 ∧
          o.2.scope.tail = r.scope.tail)
  | [], r, hs, _ => .run_pure ⟨⟨trivial, trivial, rfl⟩, rfl⟩
  | i :: is, r, hs, hw => by
      rw [items]
      rw [Item.allParts, Part.allWritten_append] at hw
      refine ((item_scoped i r hs hw.1).refuse And.left).run_bind fun i' r₁ h => ?_
      obtain ⟨hi, h₁⟩ := h
      dsimp only at hi h₁
      refine ((items_scoped is r₁ h₁.sound hw.2).refuse fun h => ?_).run_bind
        fun is' r₂ h => .run_pure ?_
      · rw [h₁.source]
        exact h.2
      · obtain ⟨his, hr₂⟩ := h
        refine ⟨⟨⟨hi.source, ?_⟩, ⟨hi.target, ?_⟩, ?_⟩, hr₂.trans h₁.tail⟩
        · rw [← h₁.source]
          exact his.source
        · rw [← h₁.target]
          exact his.target
        · rw [Item.mapAllNames, hi.names, his.names]
termination_by structural is => is
end

end Resolver

/-! ## Programs -/

namespace Scopes

/-- Every declaration of the innermost scope has linkage, as in the scope of a file. -/
def AllLinked (σ : Scopes) : Prop := ∀ d ∈ σ.head?.getD [], d.linked = true

variable {σ : Scopes}

theorem AllLinked.allows (h : σ.AllLinked) (word : String → String) (x : String) :
    σ.Allows word ⟨x, true⟩ :=
  fun d hd _ => ⟨h d hd, rfl⟩

theorem AllLinked.declare (h : σ.AllLinked) (x : String) : (σ.declare ⟨x, true⟩).AllLinked := by
  cases σ with
  | nil => simp [AllLinked, Scopes.declare]
  | cons frame outer =>
      have hframe : ∀ d ∈ frame, d.linked = true := h
      simpa [AllLinked, Scopes.declare] using hframe

end Scopes

namespace Resolver

/-- A function declares its name in the file and then resolves its body in a scope of its own. -/
theorem decl_scoped {d : Decl} (r : Resolution) (hs : r.scope.Sound)
    (hl : r.scope.source.AllLinked) (hw : Part.AllWritten m d.parts) :
    Ensures ((decl d).run r) (fun _ => ¬ d.Scoped id r.scope.source)
      (fun o => ScopedAs Decl.Scoped Decl.mapNames r.scope d o.1 ∧
        r.scope.Leads o.2.scope (d.after r.scope.source) (o.1.after r.scope.target)) := by
  cases d with
  | var d =>
      have hd : (Part.fileVar d).Written m := hw _ List.mem_cons_self
      have hname : Plain d.name := hd.declared _ List.mem_cons_self
      -- in the scope of a file everything has linkage, so anything may be repeated
      have ha := hl.allows id d.name
      refine (declareLinked_scoped r hs hname ha).run_bind fun _ r₁ h₁ => .run_pure ?_
      refine ⟨⟨ha, hs.allows_of_source (stem_of_plain hname) ha, ?_⟩, h₁⟩
      rw [Decl.mapNames, VarDecl.mapNames_stem hd]
  | prototype f =>
      refine (prototype_scoped r hs (hw _ List.mem_cons_self)).run_bind
        fun f' r₁ h => .run_pure ?_
      obtain ⟨hf, h₁⟩ := h
      refine ⟨⟨hf.source, hf.target, ?_⟩, h₁⟩
      rw [Decl.mapNames, hf.names]
  | function f s body =>
      simp only [Decl.parts, Part.allWritten_cons] at hw
      have hname : Plain f.name := hw.1.declared _ List.mem_cons_self
      rw [decl]
      refine ((functionName_scoped r hs hname).refuse fun h => h.1.1).run_bind
        fun _ r₁ h => ?_
      obtain ⟨ha, h₁⟩ := h
      dsimp only at h₁
      refine (inScope_scoped (r := r₁) (q := fun d' =>
        (∀ σ, Decl.after σ d' = σ.declare ⟨f.name, true⟩) ∧
        ScopedAs Decl.Scoped Decl.mapNames r.scope (.function f s body) d') fun r' hr' => ?_).imp ?_
      · refine ((header_scoped r hs hname ha h₁ hr').refuse And.left).run_bind
          fun ps r₂ h => ?_
        obtain ⟨hh, h₂⟩ := h
        dsimp only at hh h₂
        refine ((items_scoped body r₂ h₂.sound hw.2.2).refuse fun h => ?_).run_bind
          fun body' r₃ h => .run_pure ?_
        · rw [h₂.source]
          exact h.2
        obtain ⟨hb, hr₃⟩ := h
        dsimp only at hb hr₃ ⊢
        refine ⟨⟨fun σ => rfl, ⟨hh.source, ?_⟩, ⟨hh.target, ?_⟩, ?_⟩, ?_⟩
        · rw [← h₂.source]
          exact hb.source
        · rw [← h₂.target]
          exact hb.target
        · rw [Decl.mapNames, hh.names, hb.names]
        · rw [hr₃, h₂.tail, hr', List.tail_cons]
      · rintro ⟨d', r₂⟩ ⟨⟨hafter, hscoped⟩, hr₂⟩
        dsimp only at hafter hr₂ ⊢
        refine ⟨hscoped, ?_⟩
        rw [hr₂, hafter]
        exact h₁

/-- Names of the file stay linked, so every declaration of the file finds scopes in which they
are. -/
theorem decls_scoped (ds : List Decl) :
    ∀ r : Resolution, r.scope.Sound → r.scope.source.AllLinked →
      Part.AllWritten m (ds.flatMap Decl.parts) →
      Ensures ((decls ds).run r) (fun _ => ¬ Decl.AllScoped id r.scope.source ds)
        (fun o =>
          ScopedAs Decl.AllScoped (fun f => List.map (Decl.mapNames f)) r.scope ds o.1) := by
  induction ds with
  | nil =>
      intro r _ _ _
      exact .run_pure ⟨trivial, trivial, rfl⟩
  | cons d ds ih =>
      intro r hs hl hw
      rw [List.flatMap_cons, Part.allWritten_append] at hw
      rw [decls]
      refine ((decl_scoped r hs hl hw.1).refuse And.left).run_bind fun d' r₁ h => ?_
      obtain ⟨hd, h₁⟩ := h
      dsimp only at hd h₁
      have hl₁ : r₁.scope.source.AllLinked := by
        rw [h₁.source]
        cases d <;> exact hl.declare _
      refine ((ih r₁ h₁.sound hl₁ hw.2).refuse fun h => ?_).run_bind fun ds' r₂ hds => .run_pure ?_
      · rw [h₁.source]
        exact h.2
      · refine ⟨⟨hd.source, ?_⟩, ⟨hd.target, ?_⟩, ?_⟩
        · rw [← h₁.source]
          exact hds.source
        · rw [← h₁.target]
          exact hds.target
        · rw [List.map_cons, hd.names, hds.names]

end Resolver

/-- Resolution of a written program succeeds just where it is well scoped, and erasing the numbers
gives the program back. -/
theorem Program.resolve_scoped_of_written {tree : Program} (hw : Part.AllWritten m tree.parts) :
    Ensures tree.resolve (fun _ => ¬ tree.Scoped id)
      (fun p => tree.Scoped id ∧ p.Scoped stem ∧ p.mapNames stem = tree) := by
  have hs : Scope.Sound [[]] := ⟨by simp, by simp⟩
  have hlinked : (Scope.source [[]]).AllLinked := by simp [Scopes.AllLinked, Scope.source]
  have hds := Resolver.decls_scoped tree.decls ⟨0, [[]]⟩ hs hlinked hw
  refine Ensures.bind (q := fun ds => ScopedAs Decl.AllScoped (fun f => List.map (Decl.mapNames f))
    [[]] tree.decls ds) (Ensures.map hds) fun ds hds => .pure ⟨hds.source, hds.target, ?_⟩
  have hmap : ds.map (Decl.mapNames stem) = tree.decls := hds.names
  rw [mapNames, hmap]

end

/-! ## Texts -/

/-- Names with linkage keep their spelling. -/
theorem Program.linkedNames_of_mapNames {p tree : Program} (hmap : p.mapNames stem = tree)
    (hplain : ∀ x ∈ p.linkedNames, Plain x) : p.linkedNames = tree.linkedNames := by
  have hstem : ∀ x ∈ p.linkedNames, stem x = x := fun x hx => stem_of_plain (hplain x hx)
  calc p.linkedNames
      = p.linkedNames.map stem := by rw [List.map_congr_left hstem, List.map_id']
    _ = tree.linkedNames := by rw [← hmap, linkedNames_mapNames]

/-- Names are resolved exactly if the program keeps the rules of scoping. Then each use has the name
that the innermost visible declaration of its word was given, local names are told apart throughout
the program, names with linkage stay, and without the numbers the program is the one that was
read. -/
theorem Program.resolve_keeps_scopes {text : String} {ts : List Token} {tree : Program}
    (hts : tokens text = .ok ts) (htree : Program.ofTokens ts = .ok tree) :
    ((∃ p, tree.resolve = .ok p) ↔ tree.Scoped id) ∧
      ∀ p, tree.resolve = .ok p →
        p.Scoped stem ∧ p.localNames.Nodup ∧ p.linkedNames = tree.linkedNames ∧
          p.mapNames stem = tree := by
  have hensures := resolve_scoped_of_written (written_of_text hts htree)
  refine ⟨⟨?_, fun hscoped => ?_⟩, fun p hp => ?_⟩
  · rintro ⟨p, hp⟩
    exact (hensures.ok_of_eq hp).1
  · cases hp : tree.resolve with
    | ok p => exact ⟨p, rfl⟩
    | error f => exact absurd hscoped (hensures.bad_of_eq hp)
  · obtain ⟨-, htarget, hmap⟩ := hensures.ok_of_eq hp
    obtain ⟨hi, hresolved⟩ := (resolve_ensures (allRead_of_text hts htree)).ok_of_eq hp
    refine ⟨htarget, hresolved.numbered.nodup, linkedNames_of_mapNames hmap ?_, hmap⟩
    intro x hx
    obtain ⟨part, hpart, hx⟩ := List.mem_flatMap.1 hx
    exact (hresolved.read part hpart).plain x hx

/-- The text of a function with a variable for each of its four scopes, all with one name. -/
def shadowText : String :=
  "int f(int x) \x7b for (int x = 0; x < 2; x = x + 1) \x7b int x = x; x = 1; \x7d " ++
    "\x7b int x; x = 2; \x7d return x; \x7d"

theorem Program.resolve_keeps_scopes_shadowText :
    ∃ ts tree p, tokens shadowText = .ok ts ∧ Program.ofTokens ts = .ok tree ∧
      tree.resolve = .ok p ∧ p.localNames = ["x.0", "x.1", "x.2", "x.3"] ∧
      ((∃ p, tree.resolve = .ok p) ↔ tree.Scoped id) ∧
      ∀ p, tree.resolve = .ok p →
        p.Scoped stem ∧ p.localNames.Nodup ∧ p.linkedNames = tree.linkedNames ∧
          p.mapNames stem = tree := by
  have hchars : shadowText.toList = _ := toList_append_eq String.toList_ofList String.toList_ofList
  have h : ((tokens shadowText).toOption.bind fun ts =>
      (Program.ofTokens ts).toOption.bind fun tree =>
        tree.resolve.toOption.bind fun p => some p.localNames) =
      some ["x.0", "x.1", "x.2", "x.3"] := by
    rw [tokens, hchars]
    decide +kernel
  obtain ⟨ts, hts, h⟩ := toOption_bind_eq_some.1 h
  obtain ⟨tree, htree, h⟩ := toOption_bind_eq_some.1 h
  obtain ⟨p, hp, h⟩ := toOption_bind_eq_some.1 h
  exact ⟨ts, tree, p, hts, htree, hp, Option.some.inj h, resolve_keeps_scopes hts htree⟩

end IntegerC
