import IntegerC.Machine.Assembly
import IntegerC.Machine.Encodable
import IntegerC.Machine.Layout
import IntegerC.Proofs.Machine.Writing
import IntegerC.Proofs.Respelling.Choice

set_option autoImplicit false

/-! # Places and text under other names

A variable with another name gets the same place in the frame, and the names of static variables are
the same. So once every variable has its place, machine code under other names is the same machine
code, and the text of both is the same.
-/

namespace IntegerC.Machine

variable {π : Equiv.Perm String}

/-! ## Symbols -/

theorem Symbols.ofTable_rename (f : String → String) (t : SymbolTable) :
    ofTable (t.rename f) = (ofTable t).rename f := by
  induction t with
  | nil => rfl
  | cons e t ih =>
      obtain ⟨x, s⟩ := e
      rw [Table.rename_cons, ofTable_cons, ofTable_cons, ih, Table.rename_append]
      cases Symbol.ofSymbol? s <;> rfl

/-- Only objects without static storage have other names. -/
def Symbols.Keeps (π : Equiv.Perm String) (s : Symbols) : Prop :=
  ∀ e ∈ s, π e.1 = e.1 ∨ ∃ w, e.2 = .object w false

/-- A renaming that fixes all but automatic variables keeps the symbols of the assembly. -/
theorem Symbols.keeps_ofTable {t : SymbolTable}
    (h : ∀ e ∈ t, π e.1 = e.1 ∨ e.2.IsAutomatic) : (ofTable t).Keeps π := by
  intro e he
  obtain ⟨⟨x, s⟩, hs, he⟩ := List.mem_filterMap.1 he
  obtain ⟨m, hm, rfl⟩ := Option.map_eq_some_iff.1 he
  rcases h _ hs with hx | ⟨i, rfl⟩
  · exact .inl hx
  · cases hm
    exact .inr ⟨_, rfl⟩

/-! ## Places -/

namespace Layout

/-- The frame with slots of variables with other names. -/
def rename (f : String → String) (l : Layout) : Layout := ⟨l.slots.rename f, l.used⟩

/-- The place of an operand does not depend on its name: it has a slot, or its name is kept. -/
def Settles (π : Equiv.Perm String) (l : Layout) : Operand → Prop
  | .pseudo x => (l.slots.find? x).isSome ∨ π x = x
  | _ => True

/-- A placed operand is the same under its new name. -/
theorem place_rename {l : Layout} {a : Operand} (h : l.Settles π a) :
    (l.rename π).place (a.rename π) = l.place a := by
  cases a with
  | pseudo x =>
      rw [Operand.rename, place, place, rename, Table.find?_rename π.injective]
      rcases h with h | h
      · obtain ⟨depth, hdepth⟩ := Option.isSome_iff_exists.1 h
        rw [hdepth]
      · rw [h]
  | _ => rfl

theorem push_rename (l : Layout) (x : String) (w : Width) :
    (l.rename π).push (π x) w = (l.push x w).rename π := by
  simp [push, rename, Table.put_rename π.injective]

/-- A new slot leaves the others alone. -/
theorem Settles.push (l : Layout) (x : String) (w : Width) {a : Operand} (h : l.Settles π a) :
    (l.push x w).Settles π a := by
  cases a with
  | pseudo y =>
      refine h.imp (fun hy => ?_) id
      by_cases e : y = x
      · rw [e, Layout.push, Table.find?_put_self]
        rfl
      · rw [Layout.push, Table.find?_put_of_ne _ _ e]
        exact hy
  | _ => trivial

/-- A variable that is met for the first time gets the next slot in both frames, unless it is
static, and then its name is kept. -/
theorem reserve_rename {s : Symbols} (hs : s.Keeps π) (l : Layout) (a : Operand) :
    Agree (l.reserve s a) ((l.rename π).reserve (s.rename π) (a.rename π))
      (fun m m' => m' = m.rename π ∧ m.Settles π a ∧
        ∀ b, l.Settles π b → m.Settles π b) := by
  cases a with
  | pseudo x =>
      rw [Operand.rename, reserve, reserve, Table.find?_rename π.injective]
      cases hx : s.find? x with
      | none => exact .error _ _
      | some m =>
          cases m with
          | function defined => exact .error _ _
          | object w isStatic =>
              rw [rename, Table.find?_rename π.injective]
              refine .ite (fun h => .pure ⟨rfl, ?_, fun b hb => hb⟩) fun _ =>
                .pure ⟨push_rename l x w, .inl ?_, fun b hb => hb.push l x w⟩
              · -- no new slot: the variable is static and keeps its name, or it has one
                rcases Bool.or_eq_true_iff.1 h with hstatic | hslot
                · rcases hs _ (Table.mem_of_find?_eq_some hx) with hfixed | ⟨w', hw'⟩
                  · exact .inr hfixed
                  · cases hw'
                    cases hstatic
                · exact .inl hslot
              · rw [push, Table.find?_put_self]
                rfl
  | _ => exact .pure ⟨rfl, trivial, fun _ hb => hb⟩

theorem reserveAll_rename {s : Symbols} (hs : s.Keeps π) (as : List Operand) :
    ∀ l : Layout, Agree (l.reserveAll s as)
      ((l.rename π).reserveAll (s.rename π) (as.map (.rename π)))
      (fun m m' => m' = m.rename π ∧ (∀ a ∈ as, m.Settles π a) ∧
        ∀ b, l.Settles π b → m.Settles π b) := by
  induction as with
  | nil => exact fun l => .pure ⟨rfl, by simp, fun _ hb => hb⟩
  | cons a as ih =>
      intro l
      refine (reserve_rename hs l a).bind ?_
      rintro l₁ _ ⟨rfl, ha, hkeep₁⟩
      refine (ih l₁).imp ?_
      rintro m _ ⟨rfl, has, hkeep⟩
      exact ⟨rfl, List.forall_mem_cons.2 ⟨hkeep a ha, has⟩, fun b hb => hkeep b (hkeep₁ b hb)⟩

end Layout

/-! ## Instructions -/

/-- Once all operands have their places, none of these depends on a name that was changed. -/
theorem placeVariables_rename {s : Symbols} (hs : s.Keeps π) (is : List Instr) :
    Agree (placeVariables s is) (placeVariables (s.rename π) (is.map (.rename π)))
      (fun out out' => out' = out) := by
  have hoperands : (is.map (Instr.rename π)).flatMap Instr.operands =
      (is.flatMap Instr.operands).map (.rename π) := by
    simp [List.flatMap_map, List.map_flatMap, Instr.operands_mapOperands]
  rw [placeVariables, placeVariables, Layout.ofInstrs, Layout.ofInstrs, hoperands]
  refine (Layout.reserveAll_rename hs _ .empty).bind ?_
  rintro l _ ⟨rfl, hsettled, -⟩
  refine .pure ?_
  rw [Layout.apply, Layout.apply, List.map_map]
  refine congrArg₂ (· ++ ·) rfl (List.map_congr_left fun i hi => ?_)
  refine (Instr.mapOperands_mapOperands _ _ i).trans (Instr.mapOperands_congr fun a ha => ?_)
  exact Layout.place_rename (hsettled a (List.mem_flatMap.2 ⟨i, hi, ha⟩))

/-! ## Programs -/

/-- Two walks over corresponding lists agree if their steps do. -/
theorem mapM_agree {α β : Type} {f g : α → Except Fault β} {h : α → α} (xs : List α)
    (hstep : ∀ x ∈ xs, Agree (f x) (g (h x)) (fun y y' => y' = y)) :
    Agree (xs.mapM f) ((xs.map h).mapM g) (fun ys ys' => ys' = ys) := by
  induction xs with
  | nil => exact .pure rfl
  | cons x xs ih =>
      obtain ⟨hx, hxs⟩ := List.forall_mem_cons.1 hstep
      rw [List.map_cons, List.mapM_cons, List.mapM_cons]
      refine hx.bind ?_
      rintro y _ rfl
      refine (ih hxs).bind ?_
      rintro ys _ rfl
      exact .pure rfl

/-- With places for all variables, other names make no difference. -/
theorem Program.placed_rename {s : Symbols} (hs : s.Keeps π) (p : Program) :
    Agree (p.placed s) ((p.rename π).placed (s.rename π)) (fun q q' => q' = q) := by
  refine Agree.bind (mapM_agree p.topLevels fun top _ => ?_) ?_
  · cases top with
    | function g =>
        refine (placeVariables_rename hs g.instrs).bind ?_
        rintro is _ rfl
        exact .pure rfl
    | static v => exact .pure rfl
  · rintro tops _ rfl
    exact .pure rfl

/-! ## Text -/

/-- A function keeps its name. -/
theorem Platform.isDefined_eq_false {s : Symbols} (hs : s.Keeps π) {x : String} (hx : π x ≠ x) :
    isDefined s x = false := by
  rw [isDefined]
  split
  · rename_i defined h
    rcases hs _ (Table.mem_of_find?_eq_some h) with hfixed | ⟨w, hw⟩
    · exact absurd hfixed hx
    · cases hw
  · rfl

/-- Whether a function is defined here does not change under a renaming that keeps the symbols. -/
theorem Platform.isDefined_rename {s : Symbols} (hs : s.Keeps π) (x : String) :
    isDefined (s.rename π) x = isDefined s x := by
  obtain ⟨y, rfl⟩ := π.surjective x
  have hy : isDefined (s.rename π) (π y) = isDefined s y := by
    rw [isDefined, isDefined, Table.find?_rename π.injective]
  -- a name that is moved stands for no function, neither before nor after
  by_cases e : π y = y
  · rw [hy, e]
  · rw [hy, isDefined_eq_false hs e, isDefined_eq_false hs fun h => e (π.injective h)]

theorem Platform.instrLines_congr {s s' : Symbols} (h : ∀ x, isDefined s' x = isDefined s x)
    (p : Platform) (i : Instr) : p.instrLines s' i = p.instrLines s i := by
  cases i with
  | call name => cases p <;> simp [instrLines, callee, h]
  | cdq w => cases w <;> rfl
  | _ => rfl

theorem Platform.instrsLines_congr {s s' : Symbols} (h : ∀ x, isDefined s' x = isDefined s x)
    (p : Platform) (is : List Instr) : p.instrsLines s' is = p.instrsLines s is := by
  induction is with
  | nil => rfl
  | cons i is ih => rw [instrsLines, instrsLines, instrLines_congr h, ih]

/-- The text of a program only depends on which functions are defined in it. -/
theorem Program.assembly_congr {s s' : Symbols}
    (h : ∀ x, Platform.isDefined s' x = Platform.isDefined s x) (prog : Program) (p : Platform)
    (e : Text.LineEnding) : prog.assembly p s' e = prog.assembly p s e := by
  have hlines : p.functionLines s' = p.functionLines s := by
    funext f
    rw [Platform.functionLines, Platform.functionLines, Platform.instrsLines_congr h]
  rw [assembly, assembly, blocks, blocks, hlines]

end IntegerC.Machine
