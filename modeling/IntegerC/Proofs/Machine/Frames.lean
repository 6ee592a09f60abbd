import IntegerC.Machine.Code
import IntegerC.Proofs.Machine.Layouts
import IntegerC.Proofs.Machine.Writing

set_option autoImplicit false

/-! # Frames

Placing the variables of a function fails at the first operand that is no object of the symbol table,
and otherwise gives the function a frame. In it the slots of the variables that are not static are
aligned to their own widths and do not overlap, and nothing but variables is replaced.
-/

namespace IntegerC.Machine

variable {s : Symbols} {instrs : List Instr} {l : Layout}

/-! ## Variables without an object -/

/-- An operand that can be placed: a variable has to be an object of the table. -/
def Operand.Placeable (s : Symbols) : Operand → Prop
  | .pseudo x => ∃ w isStatic, s.find? x = some (.object w isStatic)
  | _ => True

/-- The variable `x` is the first of some operands that cannot be placed. -/
def FirstUnplaceable (s : Symbols) (operands : List Operand) (x : String) : Prop :=
  ∃ before behind, operands = before ++ .pseudo x :: behind ∧ (∀ a ∈ before, a.Placeable s) ∧
    ¬ (Operand.pseudo x).Placeable s

theorem FirstUnplaceable.cons {a : Operand} {operands : List Operand} {x : String}
    (ha : a.Placeable s) (h : FirstUnplaceable s operands x) :
    FirstUnplaceable s (a :: operands) x := by
  obtain ⟨before, behind, rfl, hbefore, hx⟩ := h
  exact ⟨a :: before, behind, rfl, List.forall_mem_cons.2 ⟨ha, hbefore⟩, hx⟩

/-- A fault that blames the first variable that cannot be placed. -/
def Fault.Unplaceable (s : Symbols) (operands : List Operand) (f : Fault) : Prop :=
  ∃ x, FirstUnplaceable s operands x ∧ f = (Cause.unplaceableName x).nowhere

/-- Reserving a slot fails only for a variable that no object of the table stands for. -/
theorem Layout.reserve_ensures (l : Layout) (a : Operand) :
    Ensures (l.reserve s a) (fun f => ∃ x, a = .pseudo x ∧ ¬ a.Placeable s ∧
      f = (Cause.unplaceableName x).nowhere) (fun _ => a.Placeable s) := by
  cases a with
  | pseudo x =>
      rw [reserve]
      split
      · rename_i w isStatic hfind
        have hx : (Operand.pseudo x).Placeable s := ⟨w, isStatic, hfind⟩
        split <;> exact .pure hx
      · rename_i hnone
        refine .error ⟨x, rfl, ?_, rfl⟩
        rintro ⟨w, isStatic, hfind⟩
        exact hnone w isStatic hfind
  | _ => exact .pure trivial

/-- Slots are given for operands that can all be placed, and the first other one is blamed. -/
theorem Layout.reserveAll_ensures (operands : List Operand) :
    ∀ l : Layout, Ensures (l.reserveAll s operands) (Fault.Unplaceable s operands)
      (fun _ => ∀ a ∈ operands, a.Placeable s) := by
  induction operands with
  | nil => exact fun l => .pure (by simp)
  | cons a as ih =>
      intro l
      have ha := l.reserve_ensures (s := s) a
      rw [reserveAll]
      refine (ha.mono ?_ fun _ h => h).bind fun l' hplaceable => (ih l').mono ?_ fun _ has => ?_
      · rintro f ⟨x, rfl, hx, hf⟩
        exact ⟨x, ⟨[], as, rfl, by simp, hx⟩, hf⟩
      · rintro f ⟨x, hx, hf⟩
        exact ⟨x, hx.cons hplaceable, hf⟩
      · exact List.forall_mem_cons.2 ⟨hplaceable, has⟩

theorem placeVariables_ensures (s : Symbols) (instrs : List Instr) :
    Ensures (placeVariables s instrs) (Fault.Unplaceable s (instrs.flatMap Instr.operands))
      (fun _ => ∀ a ∈ instrs.flatMap Instr.operands, a.Placeable s) :=
  (Layout.reserveAll_ensures _ .empty).bind fun _ h => .pure h

/-- There is a frame exactly if all operands can be placed. -/
theorem placeVariables_fails_iff : (∃ f, placeVariables s instrs = .error f) ↔
    ∃ i ∈ instrs, ∃ x, .pseudo x ∈ i.operands ∧ ∀ w isStatic, s.find? x ≠ some (.object w isStatic) := by
  have hensures := placeVariables_ensures s instrs
  constructor
  · rintro ⟨f, hf⟩
    obtain ⟨x, ⟨before, behind, hoperands, -, hx⟩, -⟩ := hensures.bad_of_eq hf
    have hmem : .pseudo x ∈ instrs.flatMap Instr.operands := by simp [hoperands]
    obtain ⟨i, hi, hxi⟩ := List.mem_flatMap.1 hmem
    exact ⟨i, hi, x, hxi, fun w isStatic hfind => hx ⟨w, isStatic, hfind⟩⟩
  · rintro ⟨i, hi, x, hxi, hx⟩
    cases hplace : placeVariables s instrs with
    | error f => exact ⟨f, rfl⟩
    | ok out =>
        obtain ⟨w, isStatic, hfind⟩ :=
          hensures.ok_of_eq hplace _ (List.mem_flatMap.2 ⟨i, hi, hxi⟩)
        exact absurd hfind (hx w isStatic)

/-! ## Aligned slots -/

namespace Layout

/-- Every slot is aligned to the width of its variable. -/
def Aligned (s : Symbols) (l : Layout) : Prop :=
  ∀ x d w, l.slots.find? x = some d → s.find? x = some (.object w false) → w.size ∣ d

/-- A slot is pushed at a multiple of its width, so all stay aligned. -/
theorem Aligned.push (h : Aligned s l) {x : String} {w : Width}
    (hx : s.find? x = some (.object w false)) : Aligned s (l.push x w) := by
  intro y d v hd hy
  rw [find?_push] at hd
  split at hd
  · rename_i e
    subst e
    cases hx.symm.trans hy
    cases hd
    exact dvd_alignUp _ _
  · exact h y d v hd hy

theorem ofInstrs_aligned (instrs : List Instr) : Answers (ofInstrs s instrs) (Aligned s) :=
  reserveAll_keeps (fun _ _ _ h hx => h.push hx) _ _ nofun

end Layout

/-! ## Frames -/

/-- The variable `x` is one of the operands of the instructions, is not static, and has width `w`. -/
structure Local (s : Symbols) (instrs : List Instr) (x : String) (w : Width) : Prop where
  mentioned : ∃ i ∈ instrs, .pseudo x ∈ i.operands
  automatic : s.find? x = some (.object w false)

/-- A frame of `size` bytes below the base, in which the slot of a variable `x` begins at
`offset x`. -/
structure Frame (s : Symbols) (instrs : List Instr) (offset : String → Int) (size : Nat) : Prop where
  aligned : 16 ∣ size
  within : ∀ x w, Local s instrs x w → -size ≤ offset x ∧ offset x + w.size ≤ 0
  slots : ∀ x w, Local s instrs x w → (w.size : Int) ∣ offset x
  apart : ∀ x y w v, Local s instrs x w → Local s instrs y v → x ≠ y →
    offset x + w.size ≤ offset y ∨ offset y + v.size ≤ offset x
  /-- no slot reaches a place that the instructions have on the stack -/
  below : ∀ x w, Local s instrs x w → ∀ i ∈ instrs, ∀ o, .stack o ∈ i.operands →
    offset x + w.size ≤ o

/-- The place of an operand if that of a variable that is not static is given by `offset`. -/
def Operand.placeAt (s : Symbols) (offset : String → Int) : Operand → Operand
  | .pseudo x =>
      match s.find? x with
      | some (.object _ false) => .stack (offset x)
      | _ => .data x
  | a => a

def Layout.offset (l : Layout) (x : String) : Int := -((l.slots.find? x).getD 0 : Nat)

theorem Layout.offset_eq {x : String} {d : Nat} (h : l.slots.find? x = some d) :
    l.offset x = -(d : Int) := by
  rw [offset, h, Option.getD_some]

theorem Local.exists_slot {x : String} {w : Width} (h : Local s instrs x w)
    (hl : Layout.ofInstrs s instrs = .ok l) : ∃ d, l.slots.find? x = some d := by
  obtain ⟨i, hi, hx⟩ := h.mentioned
  obtain ⟨v, isStatic, hfind, hslot⟩ := ((Layout.reserveAll_hasPlace _ _).ok_of_eq hl).2 x
    (List.mem_flatMap.2 ⟨i, hi, hx⟩)
  cases h.automatic.symm.trans hfind
  exact hslot rfl

/-- The slots that are reserved one after the other make up a frame. -/
theorem Layout.frame (hl : ofInstrs s instrs = .ok l)
    (hstack : ∀ i ∈ instrs, ∀ o, .stack o ∈ i.operands → 16 ≤ o) :
    Frame s instrs l.offset l.size := by
  have hapart := (ofInstrs_apart instrs).ok_of_eq hl
  have haligned := (ofInstrs_aligned instrs).ok_of_eq hl
  have hused : l.used ≤ l.size := le_alignUp _ (by decide)
  have hwithin : ∀ x w, Local s instrs x w → -l.size ≤ l.offset x ∧ l.offset x + w.size ≤ 0 := by
    intro x w hx
    obtain ⟨d, hd⟩ := hx.exists_slot hl
    obtain ⟨v, hv, hlow, hhigh⟩ := hapart.within x d hd
    cases hx.automatic.symm.trans hv
    rw [offset_eq hd]
    omega
  refine ⟨dvd_alignUp _ _, hwithin, fun x w hx => ?_, fun x y w v hx hy hne => ?_,
    fun x w hx i hi o ho => ?_⟩
  · obtain ⟨d, hd⟩ := hx.exists_slot hl
    rw [offset_eq hd, Int.dvd_neg]
    exact Int.natCast_dvd_natCast.2 (haligned x d w hd hx.automatic)
  · obtain ⟨d, hd⟩ := hx.exists_slot hl
    obtain ⟨e, he⟩ := hy.exists_slot hl
    have hslots := hapart.apart x y d e w v hd he hne hx.automatic hy.automatic
    rw [offset_eq hd, offset_eq he]
    omega
  · have hbelow := (hwithin x w hx).2
    have habove := hstack i hi o ho
    omega

/-- The place of each operand of the instructions. -/
theorem Layout.place_eq_placeAt (hl : ofInstrs s instrs = .ok l) {a : Operand}
    (ha : a ∈ instrs.flatMap Instr.operands) : l.place a = a.placeAt s l.offset := by
  cases a with
  | pseudo x =>
      obtain ⟨w, isStatic, hfind, hslot⟩ := ((reserveAll_hasPlace _ _).ok_of_eq hl).2 x ha
      rw [place, Operand.placeAt, hfind]
      cases isStatic with
      | false =>
          obtain ⟨d, hd⟩ := hslot rfl
          rw [hd]
          dsimp only
          rw [offset_eq hd]
      | true =>
          -- a slot belongs to a variable that is not static
          cases hd : l.slots.find? x with
          | none => rfl
          | some d =>
              obtain ⟨v, hv, -⟩ := ((ofInstrs_apart instrs).ok_of_eq hl).within x d hd
              cases hfind.symm.trans hv
  | _ => rfl

theorem Layout.apply_eq (hl : ofInstrs s instrs = .ok l) :
    l.apply instrs =
      allocate l.size ++ instrs.map (Instr.mapOperands (Operand.placeAt s l.offset)) := by
  refine congrArg (allocate l.size ++ ·) (List.map_congr_left fun i hi => ?_)
  exact Instr.mapOperands_congr fun a ha =>
    place_eq_placeAt hl (List.mem_flatMap.2 ⟨i, hi, ha⟩)

/-- Placing variables fails exactly if one of them is no object, and blames the first such one.
Otherwise the code allocates a frame in which no slots overlap, and is what it was, but for the
variables: static ones are in the data section, and each other one is in its slot. -/
theorem placeVariables_frame (s : Symbols) (instrs : List Instr)
    (hstack : ∀ i ∈ instrs, ∀ o, .stack o ∈ i.operands → 16 ≤ o) :
    ((∃ f, placeVariables s instrs = .error f) ↔
      ∃ i ∈ instrs, ∃ x, .pseudo x ∈ i.operands ∧
        ∀ w isStatic, s.find? x ≠ some (.object w isStatic)) ∧
    (∀ f, placeVariables s instrs = .error f →
      ∃ x, FirstUnplaceable s (instrs.flatMap Instr.operands) x ∧
        f = (Cause.unplaceableName x).nowhere) ∧
    ∀ out, placeVariables s instrs = .ok out →
      ∃ l offset, Layout.ofInstrs s instrs = .ok l ∧ Frame s instrs offset l.size ∧
        out = allocate l.size ++ instrs.map (Instr.mapOperands (Operand.placeAt s offset)) := by
  refine ⟨placeVariables_fails_iff, fun f hf => (placeVariables_ensures s instrs).bad_of_eq hf,
    fun out hout => ?_⟩
  obtain ⟨l, hl, rfl⟩ := (Layout.placeVariables_layout s instrs).ok_of_eq hout
  exact ⟨l, l.offset, hl, Layout.frame hl hstack, Layout.apply_eq hl⟩

/-- A slot of 4 bytes, one of 8 bytes behind it with a gap, and a static variable between a parameter
and the slots. -/
theorem placeVariables_frame_mixedWidths :
    let s : Symbols :=
      [("i", .object .longword false), ("g", .object .longword true), ("n", .object .quadword false)]
    let instrs : List Instr := [.mov .longword (.stack 16) (.pseudo "i"),
      .mov .longword (.pseudo "g") (.reg .ax), .mov .quadword (.reg .cx) (.pseudo "n"),
      .cmp .longword (.imm 0) (.pseudo "i")]
    (∀ i ∈ instrs, ∀ o, .stack o ∈ i.operands → 16 ≤ o) ∧
      ∃ offset, Frame s instrs offset 16 ∧ offset "i" = -4 ∧ offset "n" = -16 ∧
        placeVariables s instrs =
          .ok (.allocateStack 16 :: instrs.map (Instr.mapOperands (Operand.placeAt s offset))) := by
  intro s instrs
  have hstack : ∀ i ∈ instrs, ∀ o, .stack o ∈ i.operands → 16 ≤ o := by
    simp [instrs, Instr.operands]
  have hplaced : placeVariables s instrs = .ok [.allocateStack 16,
      .mov .longword (.stack 16) (.stack (-4)), .mov .longword (.data "g") (.reg .ax),
      .mov .quadword (.reg .cx) (.stack (-16)), .cmp .longword (.imm 0) (.stack (-4))] := rfl
  have hlayout : Layout.ofInstrs s instrs = .ok ⟨[("i", 4), ("n", 16)], 16⟩ := rfl
  obtain ⟨l, offset, hl, hframe, hout⟩ := (placeVariables_frame s instrs hstack).2.2 _ hplaced
  obtain rfl : _ = l := Except.ok.inj (hlayout.symm.trans hl)
  have hslots : -4 = offset "i" ∧ -16 = offset "n" ∧ -4 = offset "i" := by
    simpa [instrs, s, allocate, Instr.mapOperands, Operand.placeAt, Table.find?, Layout.size, alignUp]
      using hout
  exact ⟨hstack, offset, hframe, hslots.1.symm, hslots.2.1.symm, hplaced.trans (congrArg _ hout)⟩

end IntegerC.Machine
