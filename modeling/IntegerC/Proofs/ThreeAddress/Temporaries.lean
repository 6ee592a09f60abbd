import IntegerC.Proofs.ElaboratedChecking
import IntegerC.Proofs.ThreeAddress.Paths

set_option autoImplicit false

/-! # Temporaries

Making code for an expression adds temporaries at the end of the symbol table, each of them new and
with the type of the expression whose value it holds. Nothing else of what is made later or for
another function mentions them, no instruction reads and writes the same one, and on every path of
control they are written before they are read.
-/

namespace IntegerC

theorem SymbolTable.knows_iff_mem_names {t : SymbolTable} {x : String} :
    t.Knows x ↔ x ∈ t.names := by
  refine ⟨ThreeAddress.mem_names_of_knows, fun h e => ?_⟩
  exact (Table.find?_eq_none_iff t x).1 (typeOf?_eq_none.1 e) h

/-- Entries at the end of a table change none before them. -/
theorem SymbolTable.extends_append (t u : SymbolTable) : t.Extends (t ++ u) := by
  intro x σ hx
  obtain ⟨a, ha⟩ := typeOf?_eq_some hx
  rw [typeOf?, Table.find?_append, ha]
  rfl

namespace ThreeAddress

variable {t : SymbolTable} {es : List Expr} {whole whole' code code' : List Instr}
  {s s₁ s₂ s' : Supply} {vs vs' : List Value} {temps temps' : Table IntType}
  {own own' : List String} {i : Instr} {x : String} {τ : IntType}

/-! ## What belongs to a piece of code -/

/-- The value is a constant, a variable of the table `t`, or one of `own`. -/
def Value.Own (t : SymbolTable) (own : List String) (v : Value) : Prop :=
  ∀ x ∈ v.names, t.Knows x ∨ x ∈ own

/-- An instruction that mentions only variables of the table `t` and those in `own`, and does not
read what it writes, variables of the table apart. -/
structure Instr.Own (t : SymbolTable) (own : List String) (i : Instr) : Prop where
  reads : ∀ x ∈ i.reads, t.Knows x ∨ x ∈ own
  writes : ∀ x ∈ i.writes, t.Knows x ∨ x ∈ own
  apart : ∀ x ∈ i.writes, x ∈ i.reads → t.Knows x

theorem Value.Own.mono (h : own ⊆ own') {v : Value} (hv : v.Own t own) : v.Own t own' :=
  fun x hx => (hv x hx).imp_right (@h x)

theorem Value.own_constant {c : Constant} : (Value.constant c).Own t own := fun _ h => by cases h

theorem Instr.Own.mono (h : own ⊆ own') (hi : i.Own t own) : i.Own t own' where
  reads := fun x hx => (hi.reads x hx).imp_right (@h x)
  writes := fun x hx => (hi.writes x hx).imp_right (@h x)
  apart := hi.apart

theorem Instr.own_of_sources (hs : ∀ v ∈ i.sources, v.Own t own)
    (hd : ∀ v ∈ i.destination?, v.Own t []) : i.Own t own where
  reads := fun x hx => hs _ (mem_reads.1 hx) x List.mem_cons_self
  writes := fun x hx => .inl ((hd _ (mem_writes.1 hx) x List.mem_cons_self).resolve_right (by simp))
  apart := fun x hx _ => (hd _ (mem_writes.1 hx) x List.mem_cons_self).resolve_right (by simp)

/-- An instruction that may write to a new variable. -/
theorem Instr.own_append (hs : ∀ v ∈ i.sources, v.Own t own) (hd : ∀ v ∈ i.destination?, v = .var x)
    (hx : x ∉ own) : i.Own t (own ++ [x]) := by
  have hreads : ∀ y ∈ i.reads, t.Knows y ∨ y ∈ own :=
    fun y hy => hs _ (mem_reads.1 hy) y List.mem_cons_self
  have hwrites : ∀ y ∈ i.writes, y = x :=
    fun y hy => Value.var.inj (hd _ (mem_writes.1 hy))
  refine ⟨fun y hy => (hreads y hy).imp_right (List.mem_append_left _), fun y hy => ?_,
    fun y hy hy' => ?_⟩
  · rw [hwrites y hy]
    exact .inr (by simp)
  · exact (hreads y hy').resolve_right fun hown => hx (hwrites y hy ▸ hown)

/-! ## Adding temporaries -/

/-- The variable `x` holds the value of one of the expressions, and that has type `τ`: `x` was new
when code was made for the expression, that code leaves its value there, and it is in the code. -/
def Holds (es : List Expr) (code : List Instr) (x : String) (τ : IntType) : Prop :=
  ∃ e ∈ es, e.type = some τ ∧ ∃ s out s', (Coder.expr e).run s = .ok (out, s') ∧
    out.value = .var x ∧ ¬ s.symbols.Knows x ∧ out.code <:+: code

theorem Holds.within (h : code <:+: code') (hx : Holds es code x τ) : Holds es code' x τ := by
  obtain ⟨e, he, hτ, s, out, s', hrun, hv, hnew, hcode⟩ := hx
  exact ⟨e, he, hτ, s, out, s', hrun, hv, hnew, hcode.trans h⟩

def entries (temps : Table IntType) : SymbolTable := temps.map fun e => (e.1, .automatic e.2)

@[simp] theorem names_entries (temps : Table IntType) : (entries temps).names = temps.names := by
  simp [entries, Table.names]

theorem names_append {α : Type} (t u : Table α) : Table.names (t ++ u) = t.names ++ u.names :=
  List.map_append

/-- How a supply becomes another one with new temporaries, which come last in its table. -/
structure Supply.Adds (s s' : Supply) (temps : Table IntType) : Prop where
  symbols : s'.symbols = s.symbols ++ entries temps
  unknown : ∀ x ∈ temps.names, ¬ s.symbols.Knows x
  nodup : temps.names.Nodup

namespace Supply.Adds

theorem refl (s : Supply) : s.Adds s [] :=
  ⟨by simp [entries], by simp [Table.names], List.nodup_nil⟩

theorem knows_iff (h : s.Adds s' temps) :
    s'.symbols.Knows x ↔ s.symbols.Knows x ∨ x ∈ temps.names := by
  simp only [SymbolTable.knows_iff_mem_names, h.symbols, names_append, names_entries,
    List.mem_append]

theorem extended (h : s.Adds s' temps) : s.symbols.Extends s'.symbols :=
  h.symbols ▸ SymbolTable.extends_append _ _

theorem append (h : s.Adds s₁ temps) (h' : s₁.Adds s' temps') : s.Adds s' (temps ++ temps') where
  symbols := by simp [h'.symbols, h.symbols, entries]
  unknown := by
    intro x hx hk
    rcases List.mem_append.1 (names_append temps temps' ▸ hx) with hx | hx
    · exact h.unknown x hx hk
    · exact h'.unknown x hx (h.knows_iff.2 (.inl hk))
  nodup := by
    rw [names_append, List.nodup_append]
    refine ⟨h.nodup, h'.nodup, fun x hx y hy e => h'.unknown y hy ?_⟩
    exact h.knows_iff.2 (.inr (e ▸ hx))

theorem single (hnew : ¬ s.symbols.Knows x) (hs : s'.symbols = s.symbols ++ [(x, .automatic τ)]) :
    s.Adds s' [(x, τ)] :=
  ⟨hs, by simpa [Table.names] using hnew, List.nodup_singleton x⟩

end Supply.Adds

/-- How a supply `s` becomes `s'` with the temporaries `temps`, which hold values in the code
`whole`, while the instructions `code` are made and the values `vs` named. -/
structure Fresh (t : SymbolTable) (es : List Expr) (whole : List Instr) (s s' : Supply)
    (code : List Instr) (vs : List Value) (temps : Table IntType) : Prop where
  adds : s.Adds s' temps
  held : ∀ e ∈ temps, Holds es whole e.1 e.2
  values : ∀ v ∈ vs, v.Own t temps.names
  instrs : ∀ i ∈ code, i.Own t temps.names

namespace Fresh

theorem refl (s : Supply) (hv : ∀ v ∈ vs, v.Own t []) : Fresh t es whole s s [] vs [] :=
  ⟨.refl s, by simp, hv, by simp⟩

theorem value (h : Fresh t es whole s s' code vs temps) {v : Value} (hv : v ∈ vs ∨ v.names = []) :
    v.Own t temps.names := by
  rcases hv with hv | hv
  · exact h.values v hv
  · simp [Value.Own, hv]

/-- The code may be part of other code. -/
theorem within (hw : whole <:+: whole') (h : Fresh t es whole s s' code vs temps) :
    Fresh t es whole' s s' code vs temps :=
  { h with held := fun e he => (h.held e he).within hw }

theorem left (h : Fresh t es whole s s' code vs temps) :
    Fresh t es (whole ++ whole') s s' code vs temps :=
  h.within (List.prefix_append _ _).isInfix

theorem right (h : Fresh t es whole s s' code vs temps) :
    Fresh t es (whole' ++ whole) s s' code vs temps :=
  h.within (List.suffix_append _ _).isInfix

/-- Other instructions may be made of the same parts, and other numbers of labels used up. -/
theorem relay (h : Fresh t es whole s s₁ code vs temps) (hs : s'.symbols = s₁.symbols)
    (hv : ∀ v ∈ vs', v ∈ vs ∨ v.Own t []) (hcode : ∀ i ∈ code', i ∈ code ∨
      (∀ v ∈ i.sources, v ∈ vs ∨ v.names = []) ∧ ∀ v ∈ i.destination?, v.Own t []) :
    Fresh t es whole s s' code' vs' temps where
  adds := ⟨hs.trans h.adds.symbols, h.adds.unknown, h.adds.nodup⟩
  held := h.held
  values := fun v hv' => (hv v hv').elim (h.values v) (.mono (List.nil_subset _))
  instrs := by
    intro i hi
    rcases hcode i hi with hi | ⟨hi, hd⟩
    · exact h.instrs i hi
    · exact Instr.own_of_sources (fun v hv => h.value (hi v hv)) hd

/-- Pieces of code made one after the other have different temporaries, and the first piece does not
write those of the second. -/
theorem append (h : Fresh t es whole s s₁ code vs temps)
    (h' : Fresh t es whole s₁ s' code' vs' temps') :
    Fresh t es whole s s' (code ++ code') (vs ++ vs') (temps ++ temps') where
  adds := h.adds.append h'.adds
  held := fun e he => (List.mem_append.1 he).elim (h.held e) (h'.held e)
  values := by
    rw [names_append]
    intro v hv
    rcases List.mem_append.1 hv with hv | hv
    · exact (h.values v hv).mono (List.subset_append_left _ _)
    · exact (h'.values v hv).mono (List.subset_append_right _ _)
  instrs := by
    rw [names_append]
    intro i hi
    rcases List.mem_append.1 hi with hi | hi
    · exact (h.instrs i hi).mono (List.subset_append_left _ _)
    · exact (h'.instrs i hi).mono (List.subset_append_right _ _)

/-- A new temporary, which the instructions on top of the code may write to. -/
theorem temporary (h : Fresh t es whole s s₁ code vs temps) (hnew : ¬ s₁.symbols.Knows x)
    (hs : s'.symbols = s₁.symbols ++ [(x, .automatic τ)]) (hx : Holds es whole x τ)
    (hcode : ∀ i ∈ code', i ∈ code ∨
      (∀ v ∈ i.sources, v ∈ vs ∨ v.names = []) ∧ ∀ v ∈ i.destination?, v = .var x) :
    Fresh t es whole s s' code' [.var x] (temps ++ [(x, τ)]) := by
  have hx' : x ∉ temps.names := fun hmem => hnew (h.adds.knows_iff.2 (.inr hmem))
  have hnames : Table.names (temps ++ [(x, τ)]) = temps.names ++ [x] := names_append _ _
  refine ⟨h.adds.append (.single hnew hs), ?_, ?_, ?_⟩
  · exact List.forall_mem_append.2 ⟨h.held, List.forall_mem_singleton.2 hx⟩
  · rw [List.forall_mem_singleton, hnames]
    intro y hy
    obtain rfl : y = x := by simpa [Value.names] using hy
    exact .inr (by simp)
  · rw [hnames]
    intro i hi
    rcases hcode i hi with hi | ⟨hi, hd⟩
    · exact (h.instrs i hi).mono (List.subset_append_left _ _)
    · exact Instr.own_append (fun v hv => h.value (hi v hv)) hd hx'

end Fresh

/-! ## Expressions -/

/-- How a supply `s` becomes `s'` and gives code that yields the values `vs`. -/
structure Tidy (t : SymbolTable) (es : List Expr) (s s' : Supply) (code : List Instr)
    (vs : List Value) : Prop where
  fresh : ∃ temps, Fresh t es code s s' code vs temps
  readies : ∀ whole, (labelsOf whole).Nodup → Readies whole (fun x => ¬ t.Knows x) code vs
  enclosed : Enclosed none code

namespace Tidy

theorem refl (s : Supply) (hv : ∀ v ∈ vs, v.Own t []) : Tidy t es s s [] vs where
  fresh := ⟨[], .refl s hv⟩
  readies := fun _ _ => .nil fun v hmem x hx hk => absurd (hv v hmem x hx) (by simp [hk])
  enclosed := .nil

/-- Tidy stretches of an expression are tidy together, and both keep the values they leave. -/
theorem append (h : Tidy t es s s₁ code vs) (h' : Tidy t es s₁ s' code' vs') :
    Tidy t es s s' (code ++ code') (vs ++ vs') where
  fresh := by
    obtain ⟨temps, hf⟩ := h.fresh
    obtain ⟨temps', hf'⟩ := h'.fresh
    exact ⟨_, hf.left.append hf'.right⟩
  readies := fun whole hn => (h.readies whole hn).append (h'.readies whole hn)
  enclosed := h.enclosed.append h'.enclosed

/-- Numbers of labels may be used up. -/
theorem of_symbols (h : Tidy t es s s₁ code vs) (hs : s'.symbols = s₁.symbols) :
    Tidy t es s s' code vs := by
  obtain ⟨⟨temps, hf⟩, hr, he⟩ := h
  exact ⟨⟨temps, hf.relay hs (fun _ => .inl) fun _ => .inl⟩, hr, he⟩

/-- A value may be copied into a variable of the table. -/
theorem copy {v : Value} (h : Tidy t es s s' code [v]) (hx : (Value.var x).Own t []) :
    Tidy t es s s' (code ++ [.copy v (.var x)]) [.var x] := by
  obtain ⟨⟨temps, hf⟩, hr, hn⟩ := h
  refine ⟨⟨temps, hf.left.relay rfl (by simpa using .inr hx) fun i hi => ?_⟩, fun whole hn => ?_,
    hn.write rfl⟩
  · rcases List.mem_append.1 hi with hi | hi
    · exact .inl hi
    · obtain rfl := List.mem_singleton.1 hi
      refine .inr ⟨fun u hu => .inl hu, fun u hu => ?_⟩
      obtain rfl : Value.var x = u := Option.some.inj hu
      exact hx
  · exact (hr whole hn).write (i := .copy v (.var x)) (by simp [Instr.sources]) rfl

end Tidy

namespace Coder

theorem run_temporary {o : Value × Supply} (h : (temporary τ).run s = .ok o) :
    ∃ x, o.1 = .var x ∧ ¬ s.symbols.Knows x ∧
      o.2.symbols = s.symbols ++ [(x, .automatic τ)] := by
  have hnew := not_knows_freeNumber s.symbols s.temporaries
  cases h
  exact ⟨_, rfl, hnew, Table.put_of_not_mem (fun h => hnew (SymbolTable.knows_iff_mem_names.2 h)) _⟩

/-- The last step of making code for an expression whose value goes to a new temporary. -/
theorem temporary_tidy {e : Expr} {i : Value → Instr} {o : ExprCode × Supply}
    (h : Tidy t es s s₁ code vs) (he : e ∈ es) (hτ : e.type = some τ)
    (hrun : (expr e).run s = .ok o)
    (hlast : (do
      let dst ← temporary τ
      return ⟨dst, τ, code ++ [i dst]⟩ : Coder ExprCode).run s₁ = .ok o)
    (hs : ∀ dst, (i dst).sources = vs) (hd : ∀ dst, (i dst).destination? = some dst) :
    Tidy t es s o.2 o.1.code [o.1.value] := by
  obtain ⟨⟨dst, s₂⟩, h₂, hlast⟩ := run_bind_eq_ok.1 hlast
  obtain ⟨x, rfl, hnew, hs₂⟩ := run_temporary h₂
  cases hlast
  obtain ⟨temps, hf⟩ := h.fresh
  refine ⟨⟨_, hf.left.temporary hnew hs₂ ?_ ?_⟩, ?_, h.enclosed.write (hd _)⟩
  · refine ⟨e, he, hτ, s, _, _, hrun, rfl, fun hk => hnew ?_, List.infix_rfl⟩
    exact hf.adds.knows_iff.2 (.inl hk)
  · intro j hj
    rcases List.mem_append.1 hj with hj | hj
    · exact .inl hj
    · obtain rfl := List.mem_singleton.1 hj
      exact .inr ⟨fun v hv => .inl (hs _ ▸ hv), fun v hv => by simpa [hd] using hv.symm⟩
  · exact fun whole hn => (h.readies whole hn).write (by simp [hs]) (hd _)

theorem own_of_typeOf? {σ : CType} (h : t.typeOf? x = some σ) : (Value.var x).Own t own := by
  intro y hy
  obtain rfl : y = x := by simpa [Value.names] using hy
  exact .inl (SymbolTable.knows_of_typeOf? h)

theorem run_label {word : String} {o : String × Supply} (h : (label word).run s = .ok o) :
    o.2.symbols = s.symbols := by
  cases h
  rfl

theorem sources_conversion (σ τ : IntType) (src dst : Value) :
    (conversion σ τ src dst).sources = [src] := by
  unfold conversion
  split
  · rfl
  split
  · rfl
  split <;> rfl

theorem destination?_conversion (σ τ : IntType) (src dst : Value) :
    (conversion σ τ src dst).destination? = some dst := by
  unfold conversion
  split
  · rfl
  split
  · rfl
  split <;> rfl

/-- The same with two labels, where the new temporary is written on two ways to the end. -/
theorem jumps_tidy {e : Expr} {f : Value → String → String → List Instr} {word word' : String}
    {o : ExprCode × Supply} (code : List Instr) (vs : List Value)
    (hf : ∀ dst a b, ∃ temps, Fresh t es (f dst a b) s s₁ code vs temps)
    (hcode : ∀ dst a b, ∀ i ∈ f dst a b, i ∈ code ∨
      (∀ v ∈ i.sources, v ∈ vs ∨ v.names = []) ∧ ∀ v ∈ i.destination?, v = dst)
    (hreadies : ∀ dst a b whole, (labelsOf whole).Nodup →
      Readies whole (fun x => ¬ t.Knows x) (f dst a b) [dst])
    (henclosed : ∀ dst a b, Enclosed none (f dst a b)) (he : e ∈ es) (hτ : e.type = some τ)
    (hrun : (expr e).run s = .ok o)
    (hlast : (do
      let dst ← temporary τ
      let a ← label word
      let b ← label word'
      return ⟨dst, τ, f dst a b⟩ : Coder ExprCode).run s₁ = .ok o) :
    Tidy t es s o.2 o.1.code [o.1.value] := by
  obtain ⟨⟨dst, s₂⟩, h₂, hlast⟩ := run_bind_eq_ok.1 hlast
  obtain ⟨x, rfl, hnew, hs₂⟩ := run_temporary h₂
  obtain ⟨⟨a, s₃⟩, h₃, hlast⟩ := run_bind_eq_ok.1 hlast
  obtain ⟨⟨b, s₄⟩, h₄, hlast⟩ := run_bind_eq_ok.1 hlast
  have hs₄ : s₄.symbols = s₁.symbols ++ [(x, .automatic τ)] :=
    (run_label h₄).trans ((run_label h₃).trans hs₂)
  cases hlast
  obtain ⟨temps, hf⟩ := hf (.var x) a b
  refine ⟨⟨_, hf.temporary hnew hs₄ ?_ (hcode (.var x) a b)⟩, hreadies (.var x) a b,
    henclosed (.var x) a b⟩
  refine ⟨e, he, hτ, s, _, _, hrun, rfl, fun hk => hnew ?_, List.infix_rfl⟩
  exact hf.adds.knows_iff.2 (.inl hk)

/-- The value of an operator is in a new temporary, which none of its operands has. -/
theorem binary_tidy {e : Expr} {op : BinaryOp} {left right : ExprCode} {o : ExprCode × Supply}
    (hl : Tidy t es s s₁ left.code [left.value])
    (hr : Tidy t es s₁ s₂ right.code [right.value]) (he : e ∈ es) (hτ : e.type = some τ)
    (hop : ∀ l, op = .logic l → τ = .int) (hrun : (expr e).run s = .ok o)
    (hlast : (binary op τ left right).run s₂ = .ok o) :
    Tidy t es s o.2 o.1.code [o.1.value] := by
  cases op with
  | arith _ => exact temporary_tidy (hl.append hr) he hτ hrun hlast (fun _ => rfl) fun _ => rfl
  | shift _ => exact temporary_tidy (hl.append hr) he hτ hrun hlast (fun _ => rfl) fun _ => rfl
  | compare _ => exact temporary_tidy (hl.append hr) he hτ hrun hlast (fun _ => rfl) fun _ => rfl
  | logic op =>
      obtain rfl := hop op rfl
      refine jumps_tidy (f := connectiveCode op left right) (left.code ++ right.code)
        ([left.value] ++ [right.value]) ?_ ?_ ?_ ?_ he hτ hrun hlast
      · intro dst a b
        obtain ⟨temps, hf⟩ := hl.fresh
        obtain ⟨temps', hf'⟩ := hr.fresh
        rw [connectiveCode_eq]
        exact ⟨_, hf.left.left.left.left.append hf'.right.left.left⟩
      · intro dst a b i hi
        rw [connectiveCode_eq] at hi
        have htest : ∀ v, (connectiveTest op v a).sources = [v] ∧
            (connectiveTest op v a).destination? = none := by
          intro v
          cases op <;> exact ⟨rfl, rfl⟩
        simp only [List.mem_append, List.mem_cons, List.not_mem_nil, or_false] at hi ⊢
        -- only the two copies write the destination, and both read a constant
        rcases hi with (((hi | rfl) | hi) | rfl) | rfl | rfl | rfl | rfl | rfl
        all_goals simp_all [Instr.sources, Instr.destination?, intValue, Value.names]
      · exact fun dst a b whole hn =>
          readies_connective hn (hl.readies whole hn) (hr.readies whole hn)
      · exact fun dst a b => .connective hl.enclosed hr.enclosed

/-- The value of a conditional expression is in a new temporary, which each of its branches
writes. -/
theorem conditional_tidy {e : Expr} {s₃ : Supply} {condition yes no : ExprCode}
    {o : ExprCode × Supply} (hc : Tidy t es s s₁ condition.code [condition.value])
    (hy : Tidy t es s₁ s₂ yes.code [yes.value]) (hn : Tidy t es s₂ s₃ no.code [no.value])
    (he : e ∈ es) (hτ : e.type = some τ) (hrun : (expr e).run s = .ok o)
    (hlast : (do
      let dst ← temporary τ
      let other ← label "cond_else"
      let finish ← label "cond_end"
      return ⟨dst, τ, conditionalCode condition yes no dst other finish⟩ : Coder ExprCode).run s₃ =
        .ok o) : Tidy t es s o.2 o.1.code [o.1.value] := by
  refine jumps_tidy (f := conditionalCode condition yes no)
    (condition.code ++ yes.code ++ no.code)
    ([condition.value] ++ [yes.value] ++ [no.value]) ?_ ?_ ?_ ?_ he hτ hrun hlast
  · intro dst a b
    obtain ⟨_, hf⟩ := hc.fresh
    obtain ⟨_, hf'⟩ := hy.fresh
    obtain ⟨_, hf''⟩ := hn.fresh
    exact ⟨_, (hf.left.left.left.left.left.append hf'.right.left.left.left).append hf''.right.left⟩
  · intro dst a b i hi
    simp only [conditionalCode, List.mem_append, List.mem_cons, List.not_mem_nil, or_false] at hi ⊢
    rcases hi with ((((hi | rfl) | hi) | rfl | rfl | rfl) | hi) | rfl | rfl
    all_goals simp_all [Instr.sources, Instr.destination?]
  · exact fun dst a b whole hnodup => readies_conditional hnodup (hc.readies whole hnodup)
      (hy.readies whole hnodup) (hn.readies whole hnodup)
  · exact fun dst a b => .conditional hc.enclosed hy.enclosed hn.enclosed

mutual
/-- By induction on the expression: every temporary belongs to one node and has its type. -/
theorem expr_tidy :
    (e : Expr) → ∀ (s : Supply) (τ : IntType) (o : ExprCode × Supply), e.HasType t τ →
      e.postorder ⊆ es → (expr e).run s = .ok o → Tidy t es s o.2 o.1.code [o.1.value]
  | .constant n c, s, τ, o, h, _, hrun => by
      rw [expr, run_typeOf_eq h] at hrun
      cases hrun
      exact .refl s (by simp [Value.own_constant])
  | .var n x, s, τ, o, h, _, hrun => by
      rw [expr, run_typeOf_eq h] at hrun
      cases hrun
      exact .refl s (List.forall_mem_singleton.2 (own_of_typeOf? h.2))
  | .cast n target a, s, τ, o, h, hes, hrun => by
      obtain ⟨-, rfl, σ, ha⟩ := id h
      obtain ⟨hsub, he⟩ := List.append_subset.1 hes
      have hlast := hrun
      rw [expr] at hlast
      obtain ⟨⟨inner, s₁⟩, h₁, hlast⟩ := run_bind_eq_ok.1 hlast
      rw [run_typeOf_eq h] at hlast
      have hi := expr_tidy a s σ _ ha hsub h₁
      split at hlast
      · cases hlast
        exact hi
      · exact temporary_tidy hi (he List.mem_cons_self) h.type_eq hrun hlast
          (fun _ => sources_conversion _ _ _ _) fun _ => destination?_conversion _ _ _ _
  | .unary n op a, s, τ, o, h, hes, hrun => by
      obtain ⟨-, σ, ha, hop⟩ := id h
      obtain ⟨hsub, he⟩ := List.append_subset.1 hes
      have hlast := hrun
      rw [expr] at hlast
      obtain ⟨⟨inner, s₁⟩, h₁, hlast⟩ := run_bind_eq_ok.1 hlast
      rw [run_typeOf_eq h] at hlast
      have hi := expr_tidy a s σ _ ha hsub h₁
      exact temporary_tidy hi (he List.mem_cons_self) h.type_eq hrun hlast (fun _ => rfl)
        fun _ => rfl
  | .binary n op a b, s, τ, o, h, hes, hrun => by
      obtain ⟨-, σ, ρ, ha, hb, hop⟩ := id h
      obtain ⟨hsub, he⟩ := List.append_subset.1 hes
      obtain ⟨hsuba, hsubb⟩ := List.append_subset.1 hsub
      have hlast := hrun
      rw [expr] at hlast
      obtain ⟨⟨left, s₁⟩, h₁, hlast⟩ := run_bind_eq_ok.1 hlast
      obtain ⟨⟨right, s₂⟩, h₂, hlast⟩ := run_bind_eq_ok.1 hlast
      rw [run_typeOf_eq h] at hlast
      have hl := expr_tidy a s σ _ ha hsuba h₁
      have hr := expr_tidy b s₁ ρ _ hb hsubb h₂
      refine binary_tidy hl hr (he List.mem_cons_self) h.type_eq (fun l hl => ?_) hrun hlast
      subst hl
      exact hop
  | .assignment n a b, s, τ, o, h, hes, hrun => by
      obtain ⟨-, hv, ha, hb⟩ := id h
      obtain ⟨m, x, rfl⟩ := Expr.exists_of_isVar hv
      have hsub := (List.append_subset.1 (List.append_subset.1 hes).1).2
      rw [expr] at hrun
      obtain ⟨⟨target, s₁⟩, h₁, hrun⟩ := run_bind_eq_ok.1 hrun
      obtain ⟨⟨value, s₂⟩, h₂, hrun⟩ := run_bind_eq_ok.1 hrun
      rw [run_typeOf_eq h] at hrun
      rw [expr, run_typeOf_eq ha] at h₁
      cases h₁
      cases hrun
      -- the target has no code, and the copy writes a variable of the table
      exact (expr_tidy b s τ _ hb hsub h₂).copy (own_of_typeOf? ha.2)
  | .conditional n a b c, s, τ, o, h, hes, hrun => by
      obtain ⟨-, ⟨σ, ha⟩, hb, hc⟩ := id h
      obtain ⟨hsub, he⟩ := List.append_subset.1 hes
      obtain ⟨hsub, hsubc⟩ := List.append_subset.1 hsub
      obtain ⟨hsuba, hsubb⟩ := List.append_subset.1 hsub
      have hlast := hrun
      rw [expr] at hlast
      obtain ⟨⟨condition, s₁⟩, h₁, hlast⟩ := run_bind_eq_ok.1 hlast
      obtain ⟨⟨yes, s₂⟩, h₂, hlast⟩ := run_bind_eq_ok.1 hlast
      obtain ⟨⟨no, s₃⟩, h₃, hlast⟩ := run_bind_eq_ok.1 hlast
      rw [run_typeOf_eq h] at hlast
      exact conditional_tidy (expr_tidy a s σ _ ha hsuba h₁) (expr_tidy b s₁ τ _ hb hsubb h₂)
        (expr_tidy c s₂ τ _ hc hsubc h₃) (he List.mem_cons_self) h.type_eq hrun hlast
  | .call n f as, s, τ, o, h, hes, hrun => by
      obtain ⟨-, params, hf, has⟩ := id h
      obtain ⟨hsub, he⟩ := List.append_subset.1 hes
      have hlast := hrun
      rw [expr] at hlast
      obtain ⟨⟨outs, s₁⟩, h₁, hlast⟩ := run_bind_eq_ok.1 hlast
      rw [run_typeOf_eq h] at hlast
      have ho := exprs_tidy as s params _ has hsub h₁
      exact temporary_tidy ho (he List.mem_cons_self) h.type_eq hrun hlast (fun _ => rfl)
        fun _ => rfl
termination_by structural e => e

theorem exprs_tidy :
    (as : List Expr) → ∀ (s : Supply) (τs : List IntType) (o : List ExprCode × Supply),
      Expr.HasTypes t as τs → Expr.postorderAll as ⊆ es → (exprs as).run s = .ok o →
        Tidy t es s o.2 (o.1.flatMap ExprCode.code) (o.1.map ExprCode.value)
  | [], s, [], o, _, _, hrun => by
      cases hrun
      exact .refl s (by simp)
  | e :: as, s, τ :: τs, o, h, hes, hrun => by
      obtain ⟨hsub, hsubs⟩ := List.append_subset.1 hes
      rw [exprs] at hrun
      obtain ⟨⟨out, s₁⟩, h₁, hrun⟩ := run_bind_eq_ok.1 hrun
      obtain ⟨⟨outs, s₂⟩, h₂, hrun⟩ := run_bind_eq_ok.1 hrun
      cases hrun
      exact (expr_tidy e s τ _ h.1 hsub h₁).append (exprs_tidy as s₁ τs _ h.2 hsubs h₂)
termination_by structural as => as
end

end Coder

end ThreeAddress

end IntegerC
