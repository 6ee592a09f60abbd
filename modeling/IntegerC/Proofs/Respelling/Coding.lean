import IntegerC.Proofs.Respelling.Checking
import IntegerC.Proofs.Respelling.Renaming
import IntegerC.Proofs.ThreeAddress.Supply
import Mathlib.Data.List.Forall2

set_option autoImplicit false

/-! # Three-address code of two spellings

The code of the second of two alike programs is a renaming of the code of the first one. Which
renaming it is only the last symbol tables decide, because each run picks free names for its
temporaries; so while code is made, it is the same up to every renaming that takes one table to the
other.
-/

namespace IntegerC

theorem Param.names_eq {P : String → String → Prop} {f : String → String}
    (hf : ∀ x y, P x y → y = f x) {ps ps' : List Param} (h : List.Forall₂ (Param.Like P) ps ps') :
    ps'.map Param.name = (ps.map Param.name).map f := by
  induction h with
  | nil => rfl
  | cons hp _ ih => rw [List.map_cons, List.map_cons, List.map_cons, ih, hf _ _ hp.name]

namespace ThreeAddress

/-! ## Supplies -/

/-- The symbols of the second supply are those of the first one under other names. -/
def Supply.Follows (f : String → String) (s s' : Supply) : Prop :=
  s'.symbols = s.symbols.rename f

/-- The supplies of two runs at the same place, where names of the programs correspond by `P`. -/
structure Supply.Alike (P : String → String → Prop) (s s' : Supply) : Prop where
  symbols : SymbolTable.Alike (fun _ _ => True) s.symbols s'.symbols
  nodup : s'.symbols.names.Nodup
  labels : s'.labels = s.labels
  decides : ∀ f, s.Follows f s' → ∀ x y, P x y → y = f x

variable {P : String → String → Prop} {s s' : Supply}

theorem Supply.Alike.exists_follows (h : s.Alike P s') :
    ∃ π : Equiv.Perm String, s.Follows π s' :=
  h.symbols.exists_rename h.nodup

/-- A name that corresponds to itself has the same symbol in both supplies. -/
theorem Supply.Alike.find?_eq (h : s.Alike P s') {x : String} (hx : P x x) :
    s'.symbols.find? x = s.symbols.find? x := by
  obtain ⟨π, hπ⟩ := h.exists_follows
  have hfixed : π x = x := (h.decides π hπ x x hx).symm
  have hfind := Table.find?_rename π.injective s.symbols x
  rwa [hfixed, ← hπ] at hfind

theorem not_mem_names_of_not_knows {t : SymbolTable} {x : String} (h : ¬ t.Knows x) :
    x ∉ t.names :=
  (Table.find?_eq_none_iff t x).1 (SymbolTable.typeOf?_eq_none.1 (Decidable.not_not.1 h))

namespace Coder

/-- Two makers of code both fail, or both succeed. Then a renaming that takes one of the new tables
to the other does so with the old tables, and `r` holds of it and of the results. -/
def Parallel {α : Type} (P : String → String → Prop) (s s' : Supply) (x x' : Coder α)
    (r : (String → String) → α → α → Prop) : Prop :=
  Agree (x.run s) (x'.run s') (fun o o' => o.2.Alike P o'.2 ∧
    ∀ f, o.2.Follows f o'.2 → s.Follows f s' ∧ r f o.1 o'.1)

namespace Parallel

variable {α β : Type} {x x' : Coder α} {r r' : (String → String) → α → α → Prop}
  {q : (String → String) → β → β → Prop}

theorem pure {a a' : α} (h : s.Alike P s') (hr : ∀ f, s.Follows f s' → r f a a') :
    Parallel P s s' (Pure.pure a) (Pure.pure a') r :=
  .run_pure ⟨h, fun f hf => ⟨hf, hr f hf⟩⟩

theorem throw (f f' : Fault) : Parallel P s s' (throw f) (throw f') r := .run_throw

/-- What holds of the first results may be used for the last ones, under the same renaming. -/
theorem bind {g g' : α → Coder β} (h : Parallel P s s' x x' r)
    (hg : ∀ a a' u u', u.Alike P u' → (∀ f, u.Follows f u' → r f a a') →
      Parallel P u u' (g a) (g' a') (fun f b b' => r f a a' → q f b b')) :
    Parallel P s s' (x >>= g) (x' >>= g') q := by
  refine Agree.run_bind h fun a a' u u' hu => ?_
  refine Agree.imp (hg a a' u u' hu.1 fun f hf => (hu.2 f hf).2) fun o o' ho =>
    ⟨ho.1, fun f hf => ?_⟩
  obtain ⟨hf, hq⟩ := ho.2 f hf
  exact ⟨(hu.2 f hf).1, hq (hu.2 f hf).2⟩

theorem lift {y y' : Except Fault α} {g g' : α → Coder β} (h : Agree y y' fun a a' => a' = a)
    (hg : ∀ a, Parallel P s s' (g a) (g' a) q) :
    Parallel P s s' (liftM y >>= g) (liftM y' >>= g') q := by
  refine Agree.run_lift h ?_
  rintro _ a rfl
  exact hg a

theorem get {g g' : Supply → Coder β} (h : Parallel P s s' (g s) (g' s') q) :
    Parallel P s s' (MonadState.get >>= g) (MonadState.get >>= g') q :=
  Agree.run_get h

theorem ite {c c' : Prop} [Decidable c] [Decidable c'] {y y' : Coder α} (hc : c ↔ c')
    (hx : c → Parallel P s s' x x' r) (hy : ¬ c → Parallel P s s' y y' r) :
    Parallel P s s' (if c then x else y) (if c' then x' else y') r :=
  Agree.run_ite hc hx hy

end Parallel

/-! ## Fresh names -/

/-- Each run appends a name that is free in its own table, and the renaming takes one to the
other. -/
theorem temporary_alike (h : s.Alike P s') (t : IntType) :
    Parallel P s s' (temporary t) (temporary t) (fun f v v' => v' = v.rename f) := by
  let x := temporaryName (freeNumber s.symbols s.symbols.length s.temporaries)
  let y := temporaryName (freeNumber s'.symbols s'.symbols.length s'.temporaries)
  have hx : x ∉ s.symbols.names :=
    not_mem_names_of_not_knows (not_knows_freeNumber s.symbols s.temporaries)
  have hy : y ∉ s'.symbols.names :=
    not_mem_names_of_not_knows (not_knows_freeNumber s'.symbols s'.temporaries)
  -- each run appends its own free name, so a renaming of the new tables is one of the old tables
  have hkept : ∀ f, s'.symbols.put y (.automatic t) = (s.symbols.put x (.automatic t)).rename f →
      s.Follows f s' ∧ y = f x := by
    intro f hf
    rw [Table.put_of_not_mem hx, Table.put_of_not_mem hy, Table.rename_append] at hf
    obtain ⟨hf, hlast⟩ := List.append_inj' hf rfl
    exact ⟨hf, by simpa using hlast⟩
  refine Agree.pure ⟨⟨⟨?_, Table.nodup_put h.symbols.nodup _ _⟩, Table.nodup_put h.nodup _ _,
    h.labels, fun f hf => h.decides f (hkept f hf).1⟩, fun f hf => ⟨(hkept f hf).1, ?_⟩⟩
  · show List.Forall₂ _ (s.symbols.put x _) (s'.symbols.put y _)
    rw [Table.put_of_not_mem hx, Table.put_of_not_mem hy]
    exact List.rel_append h.symbols.entries (.cons ⟨trivial, rfl, .inr ⟨t, rfl⟩⟩ .nil)
  · exact congrArg Value.var (hkept f hf).2

theorem label_alike (h : s.Alike P s') (word : String) :
    Parallel P s s' (label word) (label word) (fun _ l l' => l' = l) := by
  refine Agree.pure ⟨⟨h.symbols, h.nodup, congrArg (· + 1) h.labels, h.decides⟩,
    fun f hf => ⟨hf, ?_⟩⟩
  show numbered word s'.labels = numbered word s.labels
  rw [h.labels]

/-! ## Expressions -/

/-- The code of an operator without jumps. -/
theorem plain_alike (h : s.Alike P s') (op : Operator) (t : IntType) (a a' b b' : ExprCode) :
    Parallel P s s'
      (do
        let dst ← temporary t
        return ⟨dst, t, a.code ++ b.code ++ [.binary op a.value b.value dst]⟩ : Coder ExprCode)
      (do
        let dst ← temporary t
        return ⟨dst, t, a'.code ++ b'.code ++ [.binary op a'.value b'.value dst]⟩ : Coder ExprCode)
      (fun f c c' => b' = b.rename f → a' = a.rename f → c' = c.rename f) := by
  refine (temporary_alike h t).bind fun v v' _ _ h _ => .pure h fun f _ hv hb ha => ?_
  rw [ha, hb, hv]
  simp [ExprCode.rename, Instr.rename]

/-- The code of an operator is renamed along with the code of both operands. -/
theorem binary_alike (h : s.Alike P s') (op : BinaryOp) (t : IntType) (a a' b b' : ExprCode) :
    Parallel P s s' (binary op t a b) (binary op t a' b')
      (fun f c c' => b' = b.rename f → a' = a.rename f → c' = c.rename f) := by
  cases op with
  | arith op => exact plain_alike h _ t a a' b b'
  | shift op => exact plain_alike h _ t a a' b b'
  | compare op => exact plain_alike h _ t a a' b b'
  | logic op =>
      refine (temporary_alike h .int).bind fun v v' _ _ h _ => ?_
      refine (label_alike h _).bind fun l l' _ _ h _ => ?_
      refine (label_alike h _).bind fun m m' _ _ h _ => .pure h fun f _ hm hl hv hb ha => ?_
      rw [ha, hb, hv, hl, hm]
      cases op <;> simp [ExprCode.rename, Instr.rename, connectiveCode, Value.rename, intValue]

theorem rename_conversion (f : String → String) (i t : IntType) (src dst : Value) :
    (conversion i t src dst).rename f = conversion i t (src.rename f) (dst.rename f) := by
  unfold conversion
  split_ifs <;> rfl

mutual
/-- The code of alike expressions is the same up to names. -/
theorem expr_alike :
    (e : Expr) → ∀ {e' : Expr} {s s' : Supply}, e.Like P Eq e' → s.Alike P s' →
      Parallel P s s' (expr e) (expr e') (fun f c c' => c' = c.rename f)
  | .constant n c, _, s, s', ⟨n', rfl, hn⟩, h => by
      rw [expr, expr]
      exact .lift (Expr.typeOf_alike hn) fun t => .pure h fun _ _ => rfl
  | .var n x, _, s, s', ⟨n', y, rfl, hn, hx⟩, h => by
      rw [expr, expr]
      refine .lift (Expr.typeOf_alike hn) fun t => .pure h fun f hf => ?_
      rw [h.decides f hf x y hx]
      rfl
  | .cast n t a, _, s, s', ⟨n', a', rfl, hn, ha⟩, h => by
      rw [expr, expr]
      refine (expr_alike a ha h).bind fun c c' _ _ h hc => .lift (Expr.typeOf_alike hn) fun t => ?_
      -- whether a conversion is needed is decided now, so some renaming has to be known now
      have htype : c'.type = c.type := by
        obtain ⟨π, hπ⟩ := h.exists_follows
        rw [hc π hπ]
        rfl
      refine .ite (by rw [htype]) (fun _ => .pure h fun f _ hc => hc) fun _ => ?_
      refine (temporary_alike h t).bind fun v v' _ _ h _ => .pure h fun f _ hv hc => ?_
      rw [hc, hv]
      simp [ExprCode.rename, rename_conversion]
  | .unary n op a, _, s, s', ⟨n', a', rfl, hn, ha⟩, h => by
      rw [expr, expr]
      refine (expr_alike a ha h).bind fun c c' _ _ h _ => .lift (Expr.typeOf_alike hn) fun t => ?_
      refine (temporary_alike h t).bind fun v v' _ _ h _ => .pure h fun f _ hv hc => ?_
      rw [hc, hv]
      simp [ExprCode.rename, Instr.rename]
  | .binary n op a b, _, s, s', ⟨n', a', b', rfl, hn, ha, hb⟩, h => by
      rw [expr, expr]
      refine (expr_alike a ha h).bind fun c c' _ _ h _ => ?_
      refine (expr_alike b hb h).bind fun d d' _ _ h _ => .lift (Expr.typeOf_alike hn) fun t => ?_
      exact binary_alike h op t c c' d d'
  | .assignment n a b, _, s, s', ⟨n', a', b', rfl, hn, ha, hb⟩, h => by
      rw [expr, expr]
      refine (expr_alike a ha h).bind fun c c' _ _ h _ => ?_
      refine (expr_alike b hb h).bind fun d d' _ _ h _ => .lift (Expr.typeOf_alike hn) fun t => ?_
      refine .pure h fun f _ hd hc => ?_
      rw [hc, hd]
      simp [ExprCode.rename, Instr.rename]
  | .conditional n a b c, _, s, s', ⟨n', a', b', c', rfl, hn, ha, hb, hc⟩, h => by
      rw [expr, expr]
      refine (expr_alike a ha h).bind fun x x' _ _ h _ => ?_
      refine (expr_alike b hb h).bind fun y y' _ _ h _ => ?_
      refine (expr_alike c hc h).bind fun z z' _ _ h _ => .lift (Expr.typeOf_alike hn) fun t => ?_
      refine (temporary_alike h t).bind fun v v' _ _ h _ => ?_
      refine (label_alike h _).bind fun l l' _ _ h _ => ?_
      refine (label_alike h _).bind fun m m' _ _ h _ => .pure h fun f _ hm hl hv hz hy hx => ?_
      rw [hx, hy, hz, hv, hl, hm]
      simp [ExprCode.rename, Instr.rename, conditionalCode]
  | .call n g es, _, s, s', ⟨n', g', es', rfl, hn, hg, hes⟩, h => by
      obtain rfl : g = g' := hg
      rw [expr, expr]
      refine (exprs_alike es hes h).bind fun cs cs' _ _ h _ =>
        .lift (Expr.typeOf_alike hn) fun t => ?_
      refine (temporary_alike h t).bind fun v v' _ _ h _ => .pure h fun f _ hv hcs => ?_
      rw [hcs, hv]
      simp [ExprCode.rename, Instr.rename, List.flatMap_map, List.map_flatMap, Function.comp_def]
termination_by structural e => e

/-- Alike expressions are coded in parallel: the second code is a renaming of the first. -/
theorem exprs_alike :
    (es : List Expr) → ∀ {es' : List Expr} {s s' : Supply}, Expr.AllLike P Eq es es' →
      s.Alike P s' →
      Parallel P s s' (exprs es) (exprs es') (fun f cs cs' => cs' = cs.map (ExprCode.rename f))
  | [], _, _, _, rfl, h => .pure h fun _ _ => rfl
  | e :: es, _, s, s', ⟨e', es', rfl, he, hes⟩, h => by
      rw [exprs, exprs]
      refine (expr_alike e he h).bind fun c c' _ _ h _ => ?_
      refine (exprs_alike es hes h).bind fun cs cs' _ _ h _ => .pure h fun f _ hcs hc => ?_
      rw [hc, hcs, List.map_cons]
termination_by structural es => es
end

/-! ## Statements -/

/-- Lists of instructions that are the same up to names. -/
abbrev SameCode (f : String → String) (is is' : List Instr) : Prop := is' = is.map (Instr.rename f)

/-- The code of a local variable is a copy to it or nothing, in both runs. -/
theorem localVar_alike (h : s.Alike P s') {d d' : VarDecl} (hd : d.Like P Eq d') :
    Parallel P s s' (localVar d) (localVar d') SameCode := by
  rw [localVar, localVar, hd.storage]
  cases hs : d.storage with
  | some c => exact .pure h fun _ _ => rfl
  | none =>
      have hinit := hd.init (by simp [hs])
      cases hi : d.init with
      | none =>
          rw [hi] at hinit
          rw [show d'.init = none from hinit]
          exact .pure h fun _ _ => rfl
      | some e =>
          rw [hi] at hinit
          obtain ⟨e', hi', he⟩ := hinit
          rw [hi']
          refine (expr_alike e he h).bind fun c c' _ _ h _ => .pure h fun f hf hc => ?_
          rw [hc, h.decides f hf _ _ hd.name]
          simp [SameCode, ExprCode.rename, Instr.rename, Value.rename]

theorem forInit_alike (h : s.Alike P s') {i i' : ForInit} (hi : i.Like P Eq i') :
    Parallel P s s' (forInit i) (forInit i') SameCode := by
  cases i with
  | nothing =>
      obtain rfl : i' = .nothing := hi
      exact .pure h fun _ _ => rfl
  | decl d =>
      obtain ⟨d', rfl, hd⟩ := hi
      exact localVar_alike h hd
  | expr e =>
      obtain ⟨e', rfl, he⟩ := hi
      exact (expr_alike e he h).bind fun c c' _ _ h _ => .pure h fun f _ hc => by
        rw [hc]
        rfl

theorem loopLabel_alike (h : s.Alike P s') (q q' : Span) (l : Option String) :
    Parallel P s s' (loopLabel q l) (loopLabel q' l) (fun _ l l' => l' = l) := by
  cases l with
  | some l => exact .pure h fun _ _ => rfl
  | none => exact .throw _ _

theorem exitTest_alike (h : s.Alike P s') (target : String) {e e' : Option Expr}
    (he : Expr.OptionLike P Eq e e') :
    Parallel P s s' (exitTest target e) (exitTest target e') SameCode := by
  cases e with
  | none =>
      obtain rfl : e' = none := he
      exact .pure h fun _ _ => rfl
  | some e =>
      obtain ⟨e', rfl, he⟩ := he
      refine (expr_alike e he h).bind fun c c' _ _ h _ => .pure h fun f _ hc => ?_
      rw [hc]
      simp [SameCode, ExprCode.rename, Instr.rename]

theorem step_alike (h : s.Alike P s') {e e' : Option Expr} (he : Expr.OptionLike P Eq e e') :
    Parallel P s s' (step e) (step e') SameCode := by
  cases e with
  | none =>
      obtain rfl : e' = none := he
      exact .pure h fun _ _ => rfl
  | some e =>
      obtain ⟨e', rfl, he⟩ := he
      refine (expr_alike e he h).bind fun c c' _ _ h _ => .pure h fun f _ hc => ?_
      rw [hc]
      rfl

mutual
/-- A renaming that takes one final table to the other is fixed before the run. It takes the table
at each step to the other one too, so the code of each part is renamed by it. -/
theorem stmt_alike :
    (t : Stmt) → ∀ {t' : Stmt} {s s' : Supply}, t.Like P Eq t' → s.Alike P s' →
      Parallel P s s' (stmt t) (stmt t') SameCode
  | .ret _ e, _, s, s', ⟨q, e', rfl, he⟩, h => by
      rw [stmt, stmt]
      refine (expr_alike e he h).bind fun c c' _ _ h _ => .pure h fun f _ hc => ?_
      rw [hc]
      simp [SameCode, ExprCode.rename, Instr.rename]
  | .expr _ e, _, s, s', ⟨q, e', rfl, he⟩, h => by
      rw [stmt, stmt]
      refine (expr_alike e he h).bind fun c c' _ _ h _ => .pure h fun f _ hc => ?_
      rw [hc]
      rfl
  | .ifThen _ e yes, _, s, s', ⟨q, e', yes', rfl, he, hy⟩, h => by
      rw [stmt, stmt]
      refine (expr_alike e he h).bind fun c c' _ _ h _ => ?_
      refine (label_alike h _).bind fun l l' _ _ h _ => ?_
      refine (stmt_alike yes hy h).bind fun y y' _ _ h _ => .pure h fun f _ hy hl hc => ?_
      rw [hc, hl, hy]
      simp [SameCode, ExprCode.rename, Instr.rename]
  | .ifElse _ e yes no, _, s, s', ⟨q, e', yes', no', rfl, he, hy, hn⟩, h => by
      rw [stmt, stmt]
      refine (expr_alike e he h).bind fun c c' _ _ h _ => ?_
      refine (label_alike h _).bind fun l l' _ _ h _ => ?_
      refine (label_alike h _).bind fun m m' _ _ h _ => ?_
      refine (stmt_alike yes hy h).bind fun y y' _ _ h _ => ?_
      refine (stmt_alike no hn h).bind fun n n' _ _ h _ => .pure h fun f _ hn hy hm hl hc => ?_
      rw [hc, hl, hm, hy, hn]
      simp [SameCode, ExprCode.rename, Instr.rename]
  | .block _ is, _, s, s', ⟨q, is', rfl, his⟩, h => by
      rw [stmt, stmt]
      exact items_alike is his h
  | .breakLoop q l, _, s, s', ⟨q', rfl⟩, h => by
      rw [stmt, stmt]
      refine (loopLabel_alike h q q' l).bind fun l l' _ _ h _ => .pure h fun f _ hl => ?_
      rw [hl]
      rfl
  | .continueLoop q l, _, s, s', ⟨q', rfl⟩, h => by
      rw [stmt, stmt]
      refine (loopLabel_alike h q q' l).bind fun l l' _ _ h _ => .pure h fun f _ hl => ?_
      rw [hl]
      rfl
  | .doLoop q l body e, _, s, s', ⟨q', body', e', rfl, hb, he⟩, h => by
      rw [stmt, stmt]
      refine (loopLabel_alike h q q' l).bind fun l l' _ _ h _ => ?_
      refine (expr_alike e he h).bind fun c c' _ _ h _ => ?_
      refine (stmt_alike body hb h).bind fun b b' _ _ h _ => .pure h fun f _ hb hc hl => ?_
      rw [hl, hc, hb]
      simp [SameCode, ExprCode.rename, Instr.rename]
  | .whileLoop q l e body, _, s, s', ⟨q', e', body', rfl, he, hb⟩, h => by
      rw [stmt, stmt]
      refine (loopLabel_alike h q q' l).bind fun l l' _ _ h _ => ?_
      refine (expr_alike e he h).bind fun c c' _ _ h _ => ?_
      refine (stmt_alike body hb h).bind fun b b' _ _ h _ => .pure h fun f _ hb hc hl => ?_
      rw [hl, hc, hb]
      simp [SameCode, ExprCode.rename, Instr.rename]
  | .forLoop q l init e post body, _, s, s',
      ⟨q', init', e', post', body', rfl, hi, he, hp, hb⟩, h => by
      rw [stmt, stmt]
      refine (loopLabel_alike h q q' l).bind fun l l' _ _ h hl => ?_
      -- the label is part of the code behind it, so the two labels are identified now
      obtain ⟨π, hπ⟩ := h.exists_follows
      obtain rfl := hl π hπ
      refine (forInit_alike h hi).bind fun i i' _ _ h _ => ?_
      refine (exitTest_alike h (breakLabel l') he).bind fun c c' _ _ h _ => ?_
      refine (stmt_alike body hb h).bind fun b b' _ _ h _ => ?_
      refine (step_alike h hp).bind fun p p' _ _ h _ => .pure h fun f _ hp hb hc hi _ => ?_
      rw [hi, hc, hb, hp]
      simp [SameCode, Instr.rename]
  | .null _, _, s, s', ⟨q, rfl⟩, h => .pure h fun _ _ => rfl
termination_by structural t => t

theorem item_alike :
    (i : Item) → ∀ {i' : Item} {s s' : Supply}, i.Like P Eq i' → s.Alike P s' →
      Parallel P s s' (item i) (item i') SameCode
  | .stmt t, _, _, _, ⟨t', rfl, ht⟩, h => by
      rw [item, item]
      exact stmt_alike t ht h
  | .decl (.var d), _, _, _, ⟨d', rfl, hd⟩, h => by
      rw [item, item]
      exact localVar_alike h hd
  | .decl (.prototype _), _, _, _, ⟨_, rfl, _⟩, h => .pure h fun _ _ => rfl
termination_by structural i => i

theorem items_alike :
    (is : List Item) → ∀ {is' : List Item} {s s' : Supply}, Item.AllLike P Eq is is' →
      s.Alike P s' → Parallel P s s' (items is) (items is') SameCode
  | [], _, _, _, rfl, h => .pure h fun _ _ => rfl
  | i :: is, _, _, _, ⟨i', is', rfl, hi, his⟩, h => by
      rw [items, items]
      refine (item_alike i hi h).bind fun c c' _ _ h _ => ?_
      refine (items_alike is his h).bind fun cs cs' _ _ h _ => .pure h fun f _ hcs hc => ?_
      rw [hc, hcs, SameCode, List.map_append]
termination_by structural is => is
end

/-! ## Functions -/

/-- Functions keep their names and are global in both programs or in neither. Parameters and body
are renamed. -/
theorem function_alike (h : s.Alike P s') {g g' : FunHeader} {body body' : List Item}
    (hg : g.Like P g') (hps : List.Forall₂ (Param.Like P) g.params g'.params)
    (hb : Item.AllLike P Eq body body') :
    Parallel P s s' (function g body) (function g' body') (fun f c c' => c' = c.rename f) := by
  rw [function, function, hg.name]
  refine .get ?_
  rw [h.find?_eq hg.known]
  split
  · rename_i defined global _
    refine (items_alike body hb h).bind fun b b' _ _ h _ => .pure h fun f hf hb => ?_
    rw [hb, Param.names_eq (h.decides f hf) hps]
    simp [Function.rename, Instr.rename, intValue, Value.rename]
  · exact .throw _ _

/-- The functions of alike programs have the same code up to names. -/
theorem functions_alike {ds ds' : List Decl} (hds : List.Forall₂ (Decl.Like P Eq) ds ds') :
    ∀ {s s' : Supply}, s.Alike P s' →
      Parallel P s s' (functions ds) (functions ds')
        (fun f cs cs' => cs' = cs.map (Function.rename f)) := by
  induction hds with
  | nil => exact fun h => .pure h fun _ _ => rfl
  | @cons d d' ds ds' hd _ ih =>
      intro s s' h
      cases d with
      | var d =>
          obtain ⟨d', rfl, -⟩ := hd
          exact ih h
      | prototype g =>
          obtain ⟨g', rfl, -⟩ := hd
          exact ih h
      | function g q body =>
          obtain ⟨g', q', body', rfl, hg, hps, hb⟩ := hd
          rw [functions, functions]
          refine (function_alike h hg hps hb).bind fun c c' _ _ h _ => ?_
          refine (ih h).bind fun cs cs' _ _ h _ => .pure h fun f _ hcs hc => ?_
          rw [hc, hcs, List.map_cons]

end Coder

/-! ## Programs -/

/-- Static variables come from the symbols that are not of automatic variables, and these have the
same names. -/
theorem staticVars_eq {V : String → String → Prop} {t t' : SymbolTable}
    (h : SymbolTable.Alike V t t') : staticVars t' = staticVars t := by
  obtain ⟨entries, -⟩ := h
  induction entries with
  | nil => rfl
  | @cons e e' t t' he _ ih =>
      have hentry : StaticVar.ofSymbol? e'.1 e'.2 = StaticVar.ofSymbol? e.1 e.2 := by
        obtain ⟨-, hs, hname | ⟨i, hi⟩⟩ := he
        · rw [hs, hname]
        · rw [hs, hi]
          rfl
      rw [staticVars, staticVars] at ih ⊢
      rw [List.filterMap_cons, List.filterMap_cons, hentry, ih]

/-- A name paired with another in a renamed table is renamed to it. -/
theorem eq_of_paired_rename {t : SymbolTable} {f : String → String} {x y : String}
    (h : SymbolTable.Paired t (t.rename f) x y) : y = f x := by
  -- a table stands beside its renaming place by place
  have hzip : t.names.zip (t.names.map f) = t.names.map fun a => (a, f a) := by
    simpa using List.zip_map' (f := id) (g := f) (l := t.names)
  rw [SymbolTable.Paired, Table.names_rename, hzip] at h
  obtain ⟨a, -, ha⟩ := List.mem_map.1 h
  cases ha
  rfl

/-- The code of the second of two alike programs, and its symbols, are those of the first one under
other names, which are new only for variables that are not static. -/
theorem Program.ofChecked_alike {V : String → String → Prop} {p p' : IntegerC.Program}
    {t t' : SymbolTable} (ht : SymbolTable.Alike V t t') (hnodup : t'.names.Nodup)
    (h : p.Like (SymbolTable.Paired t t') Eq p') :
    Agree (Program.ofChecked p t) (Program.ofChecked p' t') (fun r r' =>
      ∃ π : Equiv.Perm String, r' = (r.1.rename π, r.2.rename π) ∧
        ∀ e ∈ r.2, π e.1 = e.1 ∨ e.2.IsAutomatic) := by
  have hstart : Supply.Alike (SymbolTable.Paired t t') ⟨t, 0, 0⟩ ⟨t', 0, 0⟩ := by
    refine ⟨⟨ht.entries.imp fun _ _ he => ⟨trivial, he.2⟩, ht.nodup⟩, hnodup, rfl, ?_⟩
    intro f hf x y hxy
    rw [show t' = t.rename f from hf] at hxy
    exact eq_of_paired_rename hxy
  refine Agree.bind (Coder.functions_alike h hstart) fun o o' ho => .pure ?_
  obtain ⟨hsupply, hfollows⟩ := ho
  obtain ⟨π, hπ⟩ := hsupply.exists_follows
  refine ⟨π, ?_, SymbolTable.Alike.fixed (hπ ▸ hsupply.symbols)⟩
  refine Prod.ext ?_ hπ
  dsimp only
  rw [(hfollows π hπ).2, staticVars_eq hsupply.symbols]
  simp [rename, TopLevel.rename, Function.comp_def]

end ThreeAddress

end IntegerC
