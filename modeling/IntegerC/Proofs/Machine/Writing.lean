import IntegerC.Machine.Assembly
import IntegerC.Machine.Encodable
import IntegerC.Machine.Layout
import IntegerC.Proofs.Machine.Choice

set_option autoImplicit false

/-! # What placing, mending and writing ensure

Every variable of the symbol table gets a place. When all defects are mended, no instruction has a
variable without a place and no zero extension is left, and then every instruction has its line of
assembly text.
-/

namespace IntegerC.Machine

variable {t : SymbolTable}

/-! ## Symbols -/

theorem Symbols.ofTable_cons (y : String) (s : IntegerC.Symbol) (t : SymbolTable) :
    Symbols.ofTable ((y, s) :: t) =
      ((Symbol.ofSymbol? s).map fun m => (y, m)).toList ++ Symbols.ofTable t := by
  unfold Symbols.ofTable
  rw [List.filterMap_cons]
  cases Symbol.ofSymbol? s <;> rfl

/-- What machine code knows of a name comes from its entry in the table. -/
theorem Symbols.find?_ofTable {x : String} {s : IntegerC.Symbol} {m : Symbol}
    (h : t.find? x = some s) (hm : Symbol.ofSymbol? s = some m) :
    (Symbols.ofTable t).find? x = some m := by
  induction t with
  | nil => cases h
  | cons e t ih =>
      obtain ⟨y, s'⟩ := e
      rw [Table.find?_cons] at h
      rw [ofTable_cons]
      split at h
      · rename_i hyx
        cases h
        rw [hm]
        exact if_pos hyx
      · rename_i hyx
        cases Symbol.ofSymbol? s' with
        | none => exact ih h
        | some m' => exact (if_neg hyx).trans (ih h)

/-- A variable of a consistent table is an object for the machine. -/
theorem Symbols.exists_object (hc : t.Consistent) {x : String} {τ : IntType}
    (h : t.typeOf? x = some (.integer τ)) :
    ∃ w isStatic, (Symbols.ofTable t).find? x = some (.object w isStatic) := by
  obtain ⟨a, ha⟩ := SymbolTable.typeOf?_eq_some h
  have hcons := hc x _ ha
  cases a with
  | automatic => exact ⟨_, _, find?_ofTable ha rfl⟩
  | static init global => exact ⟨_, _, find?_ofTable ha rfl⟩
  | function defined global => exact hcons.elim

/-! ## Places -/

/-- An operand that is no variable without a place. -/
def Operand.Placed : Operand → Prop
  | .pseudo _ => False
  | _ => True

def Instr.Placed (i : Instr) : Prop := ∀ a ∈ i.operands, a.Placed

/-- Reserving cannot fail on an operand whose names the table knows as objects. -/
theorem Layout.reserve_succeeds (hc : t.Consistent) (l : Layout) {a : Operand} (h : a.Known t) :
    Succeeds (l.reserve (.ofTable t) a) (fun _ => True) := by
  cases a with
  | pseudo x =>
      obtain ⟨τ, hτ⟩ := h
      obtain ⟨w, isStatic, hfind⟩ := Symbols.exists_object hc hτ
      rw [reserve, hfind]
      dsimp only
      split <;> exact .pure trivial
  | _ => exact .pure trivial

theorem Layout.reserveAll_succeeds (hc : t.Consistent) (operands : List Operand) :
    ∀ l : Layout, (∀ a ∈ operands, a.Known t) →
      Succeeds (l.reserveAll (.ofTable t) operands) (fun _ => True) := by
  induction operands with
  | nil => exact fun l _ => .pure trivial
  | cons a as ih =>
      intro l h
      obtain ⟨ha, has⟩ := List.forall_mem_cons.1 h
      rw [reserveAll]
      exact (l.reserve_succeeds hc ha).bind fun l' _ => ih l' has

theorem Layout.placed_place (l : Layout) (a : Operand) : (l.place a).Placed := by
  cases a with
  | pseudo x =>
      rw [place]
      split <;> trivial
  | _ => trivial

theorem Operand.isImm_place (l : Layout) (a : Operand) : (l.place a).isImm = a.isImm := by
  cases a with
  | pseudo x =>
      rw [Layout.place]
      split <;> rfl
  | _ => rfl

theorem Instr.operands_mapOperands (f : Operand → Operand) (i : Instr) :
    (i.mapOperands f).operands = i.operands.map f := by
  cases i <;> rfl

theorem Instr.mapOperands_mapOperands (f g : Operand → Operand) (i : Instr) :
    (i.mapOperands f).mapOperands g = i.mapOperands fun a => g (f a) := by
  cases i <;> rfl

theorem Instr.mapOperands_congr {f g : Operand → Operand} {i : Instr}
    (h : ∀ a ∈ i.operands, f a = g a) : i.mapOperands f = i.mapOperands g := by
  cases i <;> simp_all [mapOperands, operands]

/-- Every variable gets a place. -/
theorem Layout.placed_apply (l : Layout) (instrs : List Instr) :
    ∀ i ∈ l.apply instrs, i.Placed := by
  unfold apply
  refine List.forall_mem_append.2 ⟨?_, ?_⟩
  · split <;> simp [Instr.Placed, Instr.operands]
  · intro j hj a ha
    obtain ⟨i, -, rfl⟩ := List.mem_map.1 hj
    rw [Instr.operands_mapOperands] at ha
    obtain ⟨b, -, rfl⟩ := List.mem_map.1 ha
    exact l.placed_place b

/-- Every operand is placed once all of its names are known to the table. -/
theorem placeVariables_succeeds (hc : t.Consistent) {instrs : List Instr}
    (h : ∀ i ∈ instrs, i.Known t) :
    Succeeds (placeVariables (.ofTable t) instrs) (fun out => ∀ i ∈ out, i.Placed) := by
  have hall : ∀ a ∈ instrs.flatMap Instr.operands, a.Known t := by
    intro a ha
    obtain ⟨i, hi, ha⟩ := List.mem_flatMap.1 ha
    exact h i hi a ha
  exact Ensures.bind (Layout.reserveAll_succeeds hc _ _ hall) fun l _ =>
    .pure (l.placed_apply instrs)

/-! ## Mended instructions -/

/-- An instruction that has a line of assembly text. -/
def Instr.Writable (i : Instr) : Prop := i.Placed ∧ ∀ src dst, i ≠ .movZeroExtend src dst

@[simp] theorem Operand.placed_reg (r : Reg) : (Operand.reg r).Placed := trivial

@[simp] theorem Operand.placed_asLongword {a : Operand} : a.asLongword.Placed ↔ a.Placed := by
  cases a <;> exact Iff.rfl

/-- The rules put registers and operands of the instruction into what they make of it. -/
theorem Rule.placed_of_mend? {r : Rule} {i j : Instr} {out : List Instr} (h : r.mend? i = some out)
    (hi : i.Placed) (hj : j ∈ out) : j.Placed := by
  unfold Rule.mend? at h
  split at h
  all_goals try split at h
  all_goals try contradiction
  all_goals
    obtain rfl := Option.some.inj h
    simp only [List.mem_cons, List.not_mem_nil, or_false] at hj
    rcases hj with rfl | rfl | rfl <;>
    simp_all [Instr.Placed, Instr.operands, srcScratch, dstScratch]

/-- As long as an instruction is a zero extension, a rule fits it. -/
theorem writable_mend {i j : Instr} (hi : i.Placed) (hj : j ∈ mend Rule.all i) : j.Writable := by
  obtain ⟨hplaced, hnone⟩ := forall_mem_mend (p := Instr.Placed)
    (fun r _ i out hout hi j hj => Rule.placed_of_mend? hout hi hj) hi j hj
  refine ⟨hplaced, ?_⟩
  rintro src dst rfl
  cases hnone .zeroExtendToMemory (Rule.mem_all _)

/-! ## Lines -/

theorem Platform.operand_succeeds (p : Platform) (a : Access) {x : Operand} (h : x.Placed) :
    Succeeds (p.operand a x) (fun _ => True) := by
  cases x with
  | pseudo name => exact h.elim
  | _ => exact .pure trivial

theorem Platform.unaryLine_succeeds (p : Platform) (mnemonic : String) (a : Access) {x : Operand}
    (h : x.Placed) : Succeeds (p.unaryLine mnemonic a x) (fun _ => True) :=
  (p.operand_succeeds a h).bind fun _ _ => .pure trivial

theorem Platform.binaryLine_succeeds (p : Platform) (mnemonic : String) (a b : Access)
    {src dst : Operand} (hs : src.Placed) (hd : dst.Placed) :
    Succeeds (p.binaryLine mnemonic a b src dst) (fun _ => True) :=
  (p.operand_succeeds a hs).bind fun _ _ => (p.operand_succeeds b hd).bind fun _ _ => .pure trivial

/-- Every writable instruction has lines on both platforms. -/
theorem Platform.instrLines_succeeds (p : Platform) (s : Symbols) {i : Instr} (h : i.Writable) :
    Succeeds (p.instrLines s i) (fun _ => True) := by
  obtain ⟨hp, hz⟩ := h
  cases i with
  | mov w src dst | movsx src dst | binary op w src dst | cmp w src dst =>
      simp only [Instr.Placed, Instr.operands, List.forall_mem_cons] at hp
      exact p.binaryLine_succeeds _ _ _ hp.1 hp.2.1
  | movZeroExtend src dst => exact absurd rfl (hz src dst)
  | unary op w a | idiv w a | div w a | setCC c a | push a =>
      simp only [Instr.Placed, Instr.operands, List.forall_mem_cons] at hp
      exact p.unaryLine_succeeds _ _ hp.1
  | cdq w => cases w <;> exact .pure trivial
  | _ => exact .pure trivial

theorem Platform.instrsLines_succeeds (p : Platform) (s : Symbols) (instrs : List Instr)
    (h : ∀ i ∈ instrs, i.Writable) : Succeeds (p.instrsLines s instrs) (fun _ => True) := by
  induction instrs with
  | nil => exact .pure trivial
  | cons i is ih =>
      obtain ⟨hi, his⟩ := List.forall_mem_cons.1 h
      exact (p.instrLines_succeeds s hi).bind fun _ _ => (ih his).bind fun _ _ => .pure trivial

/-! ## Programs -/

def Program.Writable (p : Program) : Prop :=
  ∀ f, .function f ∈ p.topLevels → ∀ i ∈ f.instrs, i.Writable

/-- A walk over a list succeeds if every step does. -/
theorem mapM_succeeds {α β : Type} {f : α → Except Fault β} {q : β → Prop} (xs : List α)
    (h : ∀ x ∈ xs, Succeeds (f x) q) : Succeeds (xs.mapM f) (fun ys => ∀ y ∈ ys, q y) := by
  induction xs with
  | nil => exact .pure (by simp)
  | cons x xs ih =>
      obtain ⟨hx, hxs⟩ := List.forall_mem_cons.1 h
      rw [List.mapM_cons]
      refine hx.bind fun y hy => (ih hxs).bind fun ys hys => .pure ?_
      exact List.forall_mem_cons.2 ⟨hy, hys⟩

/-- A program whose operands are known can be placed. -/
theorem Program.placed_succeeds (hc : t.Consistent) {p : Program} (h : p.Known t) :
    Succeeds (p.placed (.ofTable t))
      (fun q => ∀ f, .function f ∈ q.topLevels → ∀ i ∈ f.instrs, i.Placed) := by
  refine Ensures.bind (mapM_succeeds (q := fun top => ∀ f, top = .function f →
    ∀ i ∈ f.instrs, i.Placed) p.topLevels fun top htop => ?_) fun tops ht => .pure ?_
  · cases top with
    | function g =>
        refine (placeVariables_succeeds hc (h g htop)).bind fun out ho => .pure fun f hf => ?_
        cases hf
        exact ho
    | static v => exact .pure fun f hf => by cases hf
  · exact fun f hf => ht _ hf f rfl

/-- Placed code can be written once it is mended. -/
theorem Program.writable_encodable {p : Program}
    (h : ∀ f, .function f ∈ p.topLevels → ∀ i ∈ f.instrs, i.Placed) : p.encodable.Writable := by
  intro f hf j hj
  obtain ⟨top, htop, e⟩ := List.mem_map.1 hf
  cases top with
  | function g =>
      cases e
      obtain ⟨i, hi, hj⟩ := List.mem_flatMap.1 hj
      exact writable_mend (h g htop i hi) hj
  | static v => cases e

/-- A program can be written for every platform. -/
theorem Program.assembly_succeeds {p : Program} (h : p.Writable) (platform : Platform) (s : Symbols)
    (e : Text.LineEnding) : Succeeds (p.assembly platform s e) (fun _ => True) := by
  have hfs : ∀ f ∈ p.functions, Succeeds (platform.functionLines s f) (fun _ => True) := by
    intro f hf
    obtain ⟨top, htop, hf⟩ := List.mem_filterMap.1 hf
    cases top with
    | function g =>
        cases hf
        exact (platform.instrsLines_succeeds s _ (h f htop)).bind fun _ _ => .pure trivial
    | static v => cases hf
  refine Ensures.bind (q := fun _ => True) ?_ fun blocks _ => .pure trivial
  exact (mapM_succeeds _ hfs).bind fun _ _ => .pure trivial

end IntegerC.Machine
