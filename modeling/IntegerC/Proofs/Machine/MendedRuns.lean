import IntegerC.Proofs.Machine.Mending

set_option autoImplicit false

/-! # Mended instructions do what the instruction did

What stands in for an instruction is carried out beside it, in a state that differs from its own in
the registers `r10` and `r11` only. Both are then left in the same way, with the same memory, flags
and other registers.
-/

namespace IntegerC.Machine

/-! ## Instructions before they are mended -/

/-- An operand that has a place, other than the two registers that mending uses. -/
structure Operand.Regular (a : Operand) : Prop where
  placed : a.Placed
  ne_srcScratch : a ≠ srcScratch
  ne_dstScratch : a ≠ dstScratch

/-- An operand that may be written. -/
structure Operand.Target (a : Operand) : Prop extends a.Regular where
  notImm : a.isImm = false

/-- The count of a shift: the low byte of `cx`, or an immediate that fills a byte at most. -/
def Operand.Count (a : Operand) : Prop := a = .reg .cx ∨ ∃ n : Int, 0 ≤ n ∧ n ≤ 255 ∧ a = .imm n

theorem Operand.Regular.clip {a : Operand} (h : a.Regular) (w : Width) : (a.clip w).Regular := by
  cases w with
  | quadword => exact h
  | longword =>
      cases a with
      | imm n => exact ⟨trivial, Operand.noConfusion, Operand.noConfusion⟩
      | _ => exact h

theorem Operand.Count.isLarge {a : Operand} (h : a.Count) : a.isLarge = false := by
  rcases h with rfl | ⟨n, hlow, hhigh, rfl⟩
  · rfl
  · have hholds : IntType.int.Holds n := by
      simp only [IntType.Holds, IntType.min, IntType.max, IntType.signed, IntType.card, if_true]
      omega
    simp [Operand.isLarge, hholds]

theorem Operand.Count.isMemory {a : Operand} (h : a.Count) : a.isMemory = false := by
  rcases h with rfl | ⟨n, -, -, rfl⟩ <;> rfl

theorem Operand.Count.clip {a : Operand} (h : a.Count) (w : Width) : a.clip w = a := by
  cases w with
  | quadword => rfl
  | longword => exact Operand.asLongword_of_isLarge_eq_false h.isLarge

/-- An instruction as it is chosen, with all variables in their places. -/
def Instr.Regular : Instr → Prop
  | .mov _ src dst | .movsx src dst | .movZeroExtend src dst => src.Regular ∧ dst.Target
  | .binary op _ src dst =>
      src.Regular ∧ dst.Target ∧ (op.isShift = true → src.Count)
  | .cmp _ src dst => src.Regular ∧ dst.Regular
  | .unary _ _ a | .setCC _ a => a.Target
  | .idiv _ a | .div _ a | .push a => a.Regular
  | _ => True

/-! ## States beside each other -/

/-- States that differ in the registers that mending uses, if at all. -/
structure Alike {M : Type} (m m' : State M) : Prop where
  memory : m'.memory = m.memory
  flags : m'.flags = m.flags
  regs : ∀ r, r ≠ .r10 → r ≠ .r11 → m'.regs r = m.regs r

/-- Both have no outcome, or are left in the same way in states beside each other. -/
def SameOutcome {M : Type} (o o' : Option (Exit × State M)) : Prop :=
  Option.Rel (fun x y => x.1 = y.1 ∧ Alike x.2 y.2) o o'

/-- The outcome of an instruction that writes an operand. -/
def written {M : Type} [Memory M] (m : State M) {n : Nat} (v : BitVec n) (dst : Operand) :
    Option (Exit × State M) :=
  (m.write v dst).map fun m' => (.next, m')

namespace Alike

variable {M : Type} {m m' m'' : State M}

theorem refl (m : State M) : Alike m m := ⟨rfl, rfl, fun _ _ _ => rfl⟩

theorem trans (h : Alike m m') (h' : Alike m' m'') : Alike m m'' where
  memory := h'.memory.trans h.memory
  flags := h'.flags.trans h.flags
  regs r h₁ h₂ := (h'.regs r h₁ h₂).trans (h.regs r h₁ h₂)

theorem setFlags (h : Alike m m') (flags : Option Flags) :
    Alike (m.setFlags flags) (m'.setFlags flags) :=
  ⟨h.memory, rfl, h.regs⟩

/-- Writing one of the two registers is not seen. -/
theorem setReg_scratch (h : Alike m m') {r : Reg} (hr : r = .r10 ∨ r = .r11) {n : Nat}
    (v : BitVec n) : Alike m (m'.setReg r v) where
  memory := h.memory
  flags := h.flags
  regs r' h₁ h₂ := by
    have hne : r' ≠ r := by
      rintro rfl
      exact hr.elim h₁ h₂
    exact (if_neg hne).trans (h.regs r' h₁ h₂)

theorem setReg (h : Alike m m') {r : Reg} (h₁ : r ≠ .r10) (h₂ : r ≠ .r11) {n : Nat}
    (v : BitVec n) : Alike (m.setReg r v) (m'.setReg r v) where
  memory := h.memory
  flags := h.flags
  regs r' h₁' h₂' := by
    show (if r' = r then _ else m'.regs r') = if r' = r then _ else m.regs r'
    rw [h.regs r h₁ h₂, h.regs r' h₁' h₂']

variable [Memory M] {a : Operand}

/-- Machines that agree outside the scratch registers read a regular operand alike. -/
theorem read (h : Alike m m') (ha : a.Regular) (n : Nat) : m'.read n a = m.read n a := by
  cases a with
  | imm k => rfl
  | reg r =>
      have h₁ : r ≠ .r10 := fun e => ha.ne_srcScratch (by rw [e]; rfl)
      have h₂ : r ≠ .r11 := fun e => ha.ne_dstScratch (by rw [e]; rfl)
      show some ((m'.regs r).setWidth n) = some ((m.regs r).setWidth n)
      rw [h.regs r h₁ h₂]
  | pseudo x | stack k | data x =>
      show Memory.load m'.memory _ n = Memory.load m.memory _ n
      rw [h.memory]

/-- What is written is written beside each other. -/
theorem written (h : Alike m m') (ha : a.Regular) {n : Nat} (v : BitVec n) :
    SameOutcome (written m v a) (written m' v a) := by
  cases a with
  | imm k => exact .none
  | reg r =>
      have h₁ : r ≠ .r10 := fun e => ha.ne_srcScratch (by rw [e]; rfl)
      have h₂ : r ≠ .r11 := fun e => ha.ne_dstScratch (by rw [e]; rfl)
      exact .some ⟨rfl, h.setReg h₁ h₂ v⟩
  | pseudo x | stack k | data x =>
      show SameOutcome (((Memory.store m.memory _ v).map _).map _)
        (((Memory.store m'.memory _ v).map _).map _)
      rw [h.memory]
      cases Memory.store m.memory _ v with
      | none => exact .none
      | some memory => exact .some ⟨rfl, rfl, h.flags, h.regs⟩

end Alike

namespace SameOutcome

variable {M : Type} {m m' : State M}

theorem refl (o : Option (Exit × State M)) : SameOutcome o o := by
  cases o with
  | none => exact .none
  | some x => exact .some ⟨rfl, .refl x.2⟩

theorem next (h : Alike m m') : SameOutcome (some (.next, m)) (some (.next, m')) :=
  .some ⟨rfl, h⟩

end SameOutcome

/-! ## Reading -/

namespace State

variable (m : State Bytes) {a : Operand}

/-- In a memory of bytes every operand that has a place is read. -/
theorem exists_read (ha : a.Placed) (n : Nat) : ∃ v, m.read n a = some v := by
  cases a with
  | pseudo x => exact ha.elim
  | _ => exact ⟨_, rfl⟩

/-- An operand cut to its width reads as before. -/
theorem read_clip (w : Width) (a : Operand) : m.read w.bits (a.clip w) = m.read w.bits a := by
  cases w with
  | quadword => rfl
  | longword =>
      cases a with
      | imm n =>
          show some (BitVec.ofInt 32 (IntType.int.wrap n)) = some (BitVec.ofInt 32 n)
          exact congrArg some (IntType.int.ofInt_wrap n)
      | _ => rfl

/-- A register that holds a number of some width is read in that width. -/
theorem read_setReg_self (r : Reg) {w : Width} (v : BitVec w.bits) :
    (m.setReg r v).read w.bits (.reg r) = some v := by
  obtain ⟨hlow, hhigh⟩ := w.bits_bounds
  rw [read_setReg hlow hhigh (Nat.le_refl _), BitVec.setWidth_eq]

/-- A longword in a register has zeros in front of it. -/
theorem setReg_longword (r : Reg) (v : BitVec 32) : m.setReg r v = m.setReg r (v.setWidth 64) := by
  unfold setReg
  simp

end State

variable {calls : String → State Bytes → Option (State Bytes)} {m m' : State Bytes}

/-- Flags and writes do not touch each other. -/
theorem State.write_setFlags {M : Type} [Memory M] (m : State M) (flags : Option Flags) {n : Nat}
    (v : BitVec n) (a : Operand) :
    (m.setFlags flags).write v a = (m.write v a).map fun m' => m'.setFlags flags := by
  cases a with
  | imm k | reg r => rfl
  | pseudo x | stack k | data x =>
      show (Memory.store m.memory _ v).map _ = ((Memory.store m.memory _ v).map _).map _
      rw [Option.map_map]
      rfl

/-! ## Moves through the registers -/

theorem effect_mov_eq {w : Width} {src dst : Operand} {v : BitVec w.bits}
    (h : m.read w.bits src = some v) : (Instr.mov w src dst).effect m = written m v dst := by
  simp only [Instr.effect, h, written, Option.bind_eq_bind, Option.bind_some]
  cases m.write v dst <;> rfl

/-- The mended move into a register leaves there what the move does. -/
theorem execAll_load {w : Width} {a : Operand} {v : BitVec w.bits} (h : m.read w.bits a = some v)
    (r : Reg) (is : List Instr) :
    execAll calls m (mend Rule.all (.mov w a (.reg r)) ++ is) =
      execAll calls (m.setReg r v) is := by
  have hread : m.read w.bits (a.clip w) = some v := (m.read_clip w a).trans h
  rw [mend_load]
  exact execAll_cons calls (effect_mov_eq hread)

/-- So does the mended move out of a register. -/
theorem execAll_store {w : Width} {r : Reg} {dst : Operand} {v : BitVec w.bits}
    (h : m.read w.bits (.reg r) = some v) (hd : dst.isImm = false) :
    execAll calls m (mend Rule.all (.mov w (.reg r) dst)) = written m v dst := by
  rw [mend_store w r hd, execAll_singleton]
  exact effect_mov_eq h

/-! ## Instructions with two operands of one width -/

namespace Shape

variable {s : Shape} {w : Width} {src dst : Operand}

def readSrc (s : Shape) (m : State Bytes) (w : Width) (src : Operand) : Option (BitVec w.bits) :=
  match s with
  | binary op => m.readSource op w.bits src
  | _ => m.read w.bits src

/-- The outcome of an instruction that has read its source. -/
def outcome (s : Shape) (m : State Bytes) {w : Width} (b : BitVec w.bits) (dst : Operand) :
    Option (Exit × State Bytes) :=
  match s with
  | mov => written m b dst
  | binary op => (m.read w.bits dst).bind fun a => written (m.setFlags none) (op.value a b) dst
  | cmp => (m.read w.bits dst).map fun a => (.next, m.setFlags (some (.ofDifference a b)))

/-- An instruction with two operands reads its source and then has the outcome of what was read. -/
theorem exec_instr {b : BitVec w.bits} (h : s.readSrc m w src = some b) :
    (s.instr w src dst).exec calls m = s.outcome m b dst := by
  cases s with
  | mov => exact effect_mov_eq h
  | binary op =>
      have h' : m.readSource op w.bits src = some b := h
      show (Instr.binary op w src dst).effect m = _
      simp only [Instr.effect, outcome, h', Option.bind_eq_bind, Option.bind_some, written,
        State.write_setFlags, Option.map_map]
      cases m.read w.bits dst with
      | none => rfl
      | some a =>
          show (m.write (op.value a b) dst).bind _ = (m.write (op.value a b) dst).map _
          cases m.write (op.value a b) dst <;> rfl
  | cmp =>
      have h' : m.read w.bits src = some b := h
      show (Instr.cmp w src dst).effect m = _
      simp only [Instr.effect, outcome, h', Option.bind_eq_bind, Option.bind_some]
      cases m.read w.bits dst <;> rfl

/-- States beside each other have outcomes beside each other, since the registers of mending are not
looked at. -/
theorem outcome_alike (h : Alike m m') (hd : dst.Regular) (b : BitVec w.bits) :
    SameOutcome (s.outcome m b dst) (s.outcome m' b dst) := by
  cases s with
  | mov => exact h.written hd b
  | binary op =>
      unfold outcome
      rw [h.read hd]
      cases m.read w.bits dst with
      | none => exact .none
      | some a => exact (h.setFlags none).written hd _
  | cmp =>
      unfold outcome
      rw [h.read hd]
      cases m.read w.bits dst with
      | none => exact .none
      | some a => exact .next (h.setFlags _)

/-- The source of an instruction does not stand in the register of the destination. -/
theorem readSrc_dstScratch {n : Nat} (v : BitVec n) (h : src ≠ dstScratch) :
    s.readSrc (m.setReg .r11 v) w src = s.readSrc m w src := by
  have hread : ∀ k, (m.setReg .r11 v).read k src = m.read k src := by
    intro k
    cases src with
    | reg r => exact State.read_setReg_of_ne (fun e => h (by rw [e]; rfl))
    | _ => rfl
  cases s with
  | mov | cmp => exact hread _
  | binary op =>
      show (m.setReg .r11 v).readSource op w.bits src = m.readSource op w.bits src
      unfold State.readSource
      rw [hread]
      rfl

/-- A source that is fit beside some destination is fit beside a register. -/
theorem stagesSrc_reg (hs : s.stagesSrc src dst = false) (h : s ≠ mov) (r : Reg) :
    s.stagesSrc src (.reg r) = false := by
  rw [stagesSrc, Bool.or_eq_false_iff, Bool.and_eq_false_iff (x := src.isLarge)] at hs
  have hlarge : src.isLarge = false := by
    rcases hs.2 with hl | hm
    · exact hl
    · exact absurd hm (by simp [h])
  simp [stagesSrc, hlarge]

/-- A product that goes into memory is made in the register and moved from there. -/
theorem execAll_mult {b : BitVec w.bits} (h : Alike m m') (hd : dst.Target)
    (hmem : dst.isMemory = true) (hc : Clipped w src dst)
    (hs : (binary .mult).stagesSrc src dst = false) (hne : src ≠ dstScratch)
    (hb : (binary .mult).readSrc m' w src = some b) :
    SameOutcome ((binary .mult).outcome m b dst)
      (execAll calls m' (mend Rule.all (.binary .mult w src dst))) := by
  obtain ⟨a, ha⟩ := m.exists_read hd.placed w.bits
  let m₁ := m'.setReg .r11 a
  let m₂ := (m₁.setFlags none).setReg .r11 (a * b)
  have hload : m'.read w.bits dst = some a := (h.read hd.toRegular _).trans ha
  have hr11 : m₁.read w.bits dstScratch = some a := m'.read_setReg_self _ a
  have hb₁ : (binary .mult).readSrc m₁ w src = some b := (readSrc_dstScratch a hne).trans hb
  have hmult : (Instr.binary .mult w src dstScratch).exec calls m₁ = some (.next, m₂) := by
    have hexec : (Instr.binary .mult w src dstScratch).exec calls m₁ =
        (binary .mult).outcome m₁ b dstScratch := exec_instr hb₁
    rw [outcome, hr11] at hexec
    exact hexec
  have hmend : mend Rule.all (.binary .mult w src dstScratch) = [.binary .mult w src dstScratch] :=
    mend_of_fits (s := .binary .mult) (fun e => ⟨(hc e).1, rfl⟩) (stagesSrc_reg hs (by simp) _) rfl
  have halike : Alike (m.setFlags none) m₂ :=
    ((h.setReg_scratch (.inr rfl) a).setFlags none).setReg_scratch (.inr rfl) _
  -- load the old number, multiply in the register, store the product
  rw [mend_mult hc hs hmem, dstScratch, execAll_load hload, ← dstScratch, hmend,
    List.singleton_append, execAll_cons calls hmult, dstScratch,
    execAll_store (State.read_setReg_self _ _ (a * b)) hd.notImm, outcome, ha]
  exact halike.written hd.toRegular (a * b)

/-- An immediate is compared in the register. -/
theorem execAll_cmp {b : BitVec w.bits} (h : Alike m m') (hd : dst.Regular)
    (himm : dst.isImm = true) (hc : Clipped w src dst) (hs : cmp.stagesSrc src dst = false)
    (hne : src ≠ dstScratch) (hb : cmp.readSrc m' w src = some b) :
    SameOutcome (cmp.outcome m b dst)
      (execAll calls m' (mend Rule.all (.cmp w src dst))) := by
  obtain ⟨a, ha⟩ := m.exists_read hd.placed w.bits
  let m₁ := m'.setReg .r11 a
  have hload : m'.read w.bits dst = some a := (h.read hd _).trans ha
  have hr11 : m₁.read w.bits dstScratch = some a := m'.read_setReg_self _ a
  have hb₁ : cmp.readSrc m₁ w src = some b := (readSrc_dstScratch a hne).trans hb
  have hmend : mend Rule.all (.cmp w src dstScratch) = [.cmp w src dstScratch] :=
    mend_of_fits (s := .cmp) (fun e => ⟨(hc e).1, rfl⟩) (stagesSrc_reg hs (by simp) _) rfl
  have hexec : (Instr.cmp w src dstScratch).exec calls m₁ = cmp.outcome m₁ b dstScratch :=
    exec_instr hb₁
  have halike : Alike m m₁ := h.setReg_scratch (.inr rfl) a
  -- nothing is written, so the flags are all that is left of the comparison
  rw [mend_cmp hc hs himm, dstScratch, execAll_load hload, ← dstScratch, hmend,
    execAll_singleton, hexec, outcome, outcome, hr11, ha]
  exact .next (halike.setFlags _)

/-- An instruction whose source is fit, carried out where the source may have been moved. -/
theorem execAll_of_fits {b : BitVec w.bits} (h : Alike m m') (hd : dst.Regular)
    (hw : s ≠ cmp → dst.isImm = false) (hc : Clipped w src dst)
    (hs : s.stagesSrc src dst = false) (hne : src ≠ dstScratch)
    (hb : s.readSrc m' w src = some b) :
    SameOutcome (s.outcome m b dst) (execAll calls m' (mend Rule.all (s.instr w src dst))) := by
  by_cases hstages : s.stagesDst dst = true
  · simp only [stagesDst, Bool.or_eq_true, Bool.and_eq_true, decide_eq_true_eq] at hstages
    rcases hstages with ⟨rfl, hmem⟩ | ⟨rfl, himm⟩
    · exact execAll_mult h ⟨hd, hw (by simp)⟩ hmem hc hs hne hb
    · exact execAll_cmp h hd himm hc hs hne hb
  · rw [mend_of_fits hc hs (Bool.eq_false_iff.2 hstages), execAll_singleton, exec_instr hb]
    exact outcome_alike h hd b

/-! ### Any source -/

/-- Whether the source is the count of a shift. -/
def shifts : Shape → Bool
  | binary op => op.isShift
  | _ => false

theorem readSrc_of_shifts (h : s.shifts = false) : s.readSrc m w src = m.read w.bits src := by
  cases s with
  | mov | cmp => rfl
  | binary op =>
      show m.readSource op w.bits src = _
      unfold State.readSource
      rw [show op.isShift = false from h, if_neg Bool.false_ne_true]

/-- Every regular source can be read. -/
theorem exists_readSrc (hs : src.Regular) (hcount : s.shifts = true → src.Count) :
    ∃ b, s.readSrc m w src = some b := by
  by_cases hshifts : s.shifts = true
  · cases s with
    | mov | cmp => cases hshifts
    | binary op =>
        have hop : op.isShift = true := hshifts
        show ∃ b, m.readSource op w.bits src = some b
        unfold State.readSource
        rw [hop, if_pos rfl]
        rcases hcount hshifts with rfl | ⟨n, -, -, rfl⟩
        · exact ⟨_, rfl⟩
        · exact ⟨_, rfl⟩
  · rw [readSrc_of_shifts (Bool.eq_false_iff.2 hshifts)]
    exact m.exists_read hs.placed _

theorem readSrc_clip (hcount : s.shifts = true → src.Count) :
    s.readSrc m w (src.clip w) = s.readSrc m w src := by
  by_cases hshifts : s.shifts = true
  · rw [(hcount hshifts).clip]
  · rw [readSrc_of_shifts (Bool.eq_false_iff.2 hshifts),
      readSrc_of_shifts (Bool.eq_false_iff.2 hshifts), State.read_clip]

theorem outcome_clip (hw : s ≠ cmp → dst.isImm = false) (b : BitVec w.bits) :
    s.outcome m b (dst.clip w) = s.outcome m b dst := by
  cases s with
  | mov | binary op => rw [Operand.clip_of_isImm (hw (by simp))]
  | cmp =>
      unfold outcome
      rw [State.read_clip]

/-- What a mended instruction does is what the instruction does. -/
theorem execAll_mend (hs : src.Regular) (hd : dst.Regular) (hw : s ≠ cmp → dst.isImm = false)
    (hcount : s.shifts = true → src.Count) :
    SameOutcome ((s.instr w src dst).exec calls m)
      (execAll calls m (mend Rule.all (s.instr w src dst))) := by
  obtain ⟨b, hb⟩ := exists_readSrc (s := s) (m := m) (w := w) hs hcount
  have hb' : s.readSrc m w (src.clip w) = some b := (readSrc_clip hcount).trans hb
  have hd' : (dst.clip w).Regular := hd.clip w
  have hw' : s ≠ cmp → (dst.clip w).isImm = false := by
    intro h
    rw [Operand.clip_of_isImm (hw h), hw h]
  -- from here on the immediates fit their width, as the rules behind the first one expect
  rw [exec_instr hb, mend_clip, ← outcome_clip hw]
  by_cases hstages : s.stagesSrc (src.clip w) (dst.clip w) = true
  · -- a source that is moved is no count, which needs no register
    have hshifts : s.shifts = false := by
      by_contra hshifts
      have hc := hcount (by simpa using hshifts)
      rw [hc.clip, stagesSrc, hc.isMemory, hc.isLarge] at hstages
      cases hstages
    rw [mend_of_stagesSrc clipped_clip hstages, srcScratch, execAll_load (v := b), ← srcScratch]
    · have hclipped : Clipped w (src.clip w) (dst.clip w) := clipped_clip
      refine execAll_of_fits ((Alike.refl m).setReg_scratch (.inl rfl) b) hd' hw' ?_ ?_ ?_ ?_
      · exact fun e => ⟨rfl, (hclipped e).2⟩
      · rfl
      · decide
      · rw [readSrc_of_shifts hshifts]
        exact m.read_setReg_self _ b
    · rwa [readSrc_of_shifts hshifts] at hb'
  · exact execAll_of_fits (.refl m) hd' hw' clipped_clip (Bool.eq_false_iff.2 hstages)
      (hs.clip w).ne_dstScratch hb'

end Shape

/-! ## Other instructions -/

variable {src dst a : Operand}

theorem effect_movsx_eq {v : BitVec 32} (h : m.read 32 src = some v) :
    (Instr.movsx src dst).effect m = written m (v.signExtend 64) dst := by
  simp only [Instr.effect, h, written, Option.bind_eq_bind, Option.bind_some]
  cases m.write (v.signExtend 64) dst <;> rfl

theorem effect_movZeroExtend_eq {v : BitVec 32} (h : m.read 32 src = some v) :
    (Instr.movZeroExtend src dst).effect m = written m (v.setWidth 64) dst := by
  simp only [Instr.effect, h, written, Option.bind_eq_bind, Option.bind_some]
  cases m.write (v.setWidth 64) dst <;> rfl

/-- An extension by the sign of a source that is no immediate. -/
theorem execAll_movsx {v : BitVec 32} (h : Alike m m') (hd : dst.Target)
    (hs : src.isImm = false) (hv : m'.read 32 src = some v) :
    SameOutcome (written m (v.signExtend 64) dst)
      (execAll calls m' (mend Rule.all (.movsx src dst))) := by
  by_cases hmem : dst.isMemory = true
  · let m₁ := m'.setReg .r11 (v.signExtend 64)
    have hmend : mend Rule.all (.movsx src dstScratch) = [.movsx src dstScratch] :=
      mend_movsx hs rfl
    have hexec : (Instr.movsx src dstScratch).exec calls m' = some (.next, m₁) := effect_movsx_eq hv
    have hstore : execAll calls m₁ (mend Rule.all (.mov .quadword dstScratch dst)) =
        written m₁ (v.signExtend 64) dst :=
      execAll_store (w := .quadword) (m'.read_setReg_self .r11 (w := .quadword) _) hd.notImm
    rw [mend_movsx_memory hs hmem, hmend, List.singleton_append, execAll_cons calls hexec, hstore]
    exact (h.setReg_scratch (.inr rfl) _).written hd.toRegular _
  · rw [mend_movsx hs (by simpa using hmem), execAll_singleton]
    show SameOutcome _ ((Instr.movsx src dst).effect m')
    rw [effect_movsx_eq hv]
    exact h.written hd.toRegular _

/-- A sign extension and its mended form are left alike: an immediate goes by one scratch register,
a memory destination by the other. -/
theorem execAll_mend_movsx (hs : src.Regular) (hd : dst.Target) :
    SameOutcome ((Instr.movsx src dst).exec calls m)
      (execAll calls m (mend Rule.all (.movsx src dst))) := by
  obtain ⟨v, hv⟩ := m.exists_read hs.placed 32
  show SameOutcome ((Instr.movsx src dst).effect m) _
  rw [effect_movsx_eq hv]
  by_cases himm : src.isImm = true
  · rw [mend_movsx_imm himm, srcScratch, execAll_load (w := .longword) hv]
    exact execAll_movsx ((Alike.refl m).setReg_scratch (.inl rfl) v) hd rfl
      (m.read_setReg_self .r10 (w := .longword) v)
  · exact execAll_movsx (.refl m) hd (by simpa using himm) hv

/-- A longword that is moved into a register leaves zeros in front of it. -/
theorem execAll_mend_movZeroExtend (hs : src.Regular) (hd : dst.Target) :
    SameOutcome ((Instr.movZeroExtend src dst).exec calls m)
      (execAll calls m (mend Rule.all (.movZeroExtend src dst))) := by
  obtain ⟨v, hv⟩ := m.exists_read hs.placed 32
  show SameOutcome ((Instr.movZeroExtend src dst).effect m) _
  rw [effect_movZeroExtend_eq hv]
  by_cases hmem : dst.isMemory = true
  · let m₁ := m.setReg .r11 v
    -- the longword in the register is read back as a quadword
    have hwide : m₁.read 64 (.reg .r11) = some (v.setWidth 64) := by
      rw [show m₁ = _ from m.setReg_longword .r11 v]
      exact m.read_setReg_self .r11 (w := .quadword) _
    have hload : execAll calls m (mend Rule.all (.mov .longword src dstScratch) ++
        mend Rule.all (.mov .quadword dstScratch dst)) =
        execAll calls m₁ (mend Rule.all (.mov .quadword dstScratch dst)) :=
      execAll_load (w := .longword) hv .r11 _
    have hstore : execAll calls m₁ (mend Rule.all (.mov .quadword dstScratch dst)) =
        written m₁ (v.setWidth 64) dst := execAll_store (w := .quadword) hwide hd.notImm
    rw [mend_movZeroExtend_memory src hmem, hload, hstore]
    exact ((Alike.refl m).setReg_scratch (.inr rfl) v).written hd.toRegular _
  · cases dst with
    | reg r =>
        have hload : execAll calls m (mend Rule.all (.mov .longword src (.reg r)) ++ []) =
            some (.next, m.setReg r v) := execAll_load (w := .longword) hv r []
        rw [List.append_nil] at hload
        rw [mend_movZeroExtend_reg, hload, m.setReg_longword]
        exact .refl _
    | imm n => cases hd.notImm
    | pseudo x => exact hd.placed.elim
    | stack k | data x => exact absurd rfl hmem

/-- A division does not look at the registers that mending uses. -/
theorem SameOutcome.division (h : Alike m m') (signed : Bool) {w : Width} {a' : Operand}
    (ha : m'.read w.bits a' = m.read w.bits a) :
    SameOutcome ((Instr.division signed w a).effect m)
      ((Instr.division signed w a').effect m') := by
  -- the registers of a dividend are none of those that the rules use
  have hax : m'.regs .ax = m.regs .ax := h.regs .ax (by decide) (by decide)
  have hdx : m'.regs .dx = m.regs .dx := h.regs .dx (by decide) (by decide)
  have hdivide : ∀ p : BitVec w.bits × BitVec w.bits,
      Alike (m.divided p.1 p.2) (m'.divided p.1 p.2) := fun p =>
    ((h.setReg (by decide) (by decide) _).setReg (by decide) (by decide) _).setFlags none
  -- both kinds of division are opened in the same way
  have heffect : ∀ (m : State Bytes) (a : Operand), (Instr.division signed w a).effect m =
      (m.divide signed w.bits a).map fun m' => (.next, m') := by
    intro m a
    cases signed with
    | true =>
        show (m.divide true w.bits a).bind _ = _
        cases m.divide true w.bits a <;> rfl
    | false =>
        show (m.divide false w.bits a).bind _ = _
        cases m.divide false w.bits a <;> rfl
  rw [heffect, heffect]
  unfold State.divide
  rw [ha, hax, hdx]
  cases m.read w.bits a with
  | none => exact .none
  | some v =>
      simp only [Option.bind_eq_bind, Option.bind_some]
      cases Machine.divide signed ((m.regs .dx).setWidth w.bits)
        ((m.regs .ax).setWidth w.bits) v with
      | none => exact .none
      | some p => exact .next (hdivide p)

/-- A division by an immediate goes through a register of mending first. -/
theorem execAll_mend_division (signed : Bool) (w : Width) (ha : a.Regular) :
    SameOutcome ((Instr.division signed w a).exec calls m)
      (execAll calls m (mend Rule.all (.division signed w a))) := by
  have hexec : ∀ (m : State Bytes) (a : Operand),
      (Instr.division signed w a).exec calls m = (Instr.division signed w a).effect m := by
    intro m a
    cases signed <;> rfl
  rw [mend_division]
  split
  · obtain ⟨v, hv⟩ := m.exists_read ha.placed w.bits
    have hr10 : (m.setReg .r10 v).read w.bits srcScratch = some v := m.read_setReg_self _ v
    have halike : Alike m (m.setReg .r10 v) := (Alike.refl m).setReg_scratch (.inl rfl) v
    have hmend : mend Rule.all (.division signed w srcScratch) = [.division signed w srcScratch] :=
      mend_division signed w srcScratch
    rw [hmend, srcScratch, execAll_load hv, ← srcScratch, execAll_singleton, hexec, hexec]
    exact .division halike signed (hr10.trans hv.symm)
  · rw [execAll_singleton]
    exact .refl _

theorem exec_push {v : BitVec 64} (h : m.read 64 a = some v) :
    (Instr.push a).exec calls m = some (.next, m.push v) := by
  rw [Instr.exec, h]
  rfl

/-- Machines that agree outside the scratch registers still do after the same push. -/
theorem Alike.push (h : Alike m m') (v : BitVec 64) : Alike (m.push v) (m'.push v) := by
  have hmove : Alike (m.moveStack (-8)) (m'.moveStack (-8)) := by
    unfold State.moveStack
    rw [h.regs .sp (by decide) (by decide)]
    exact h.setReg (by decide) (by decide) _
  refine ⟨?_, h.flags, hmove.regs⟩
  show (m'.memory.setWord ((m'.moveStack (-8)).regs .sp) v) = _
  rw [h.memory, hmove.regs .sp (by decide) (by decide)]
  rfl

/-- A large immediate is pushed by way of a register of mending. -/
theorem execAll_mend_push (ha : a.Regular) :
    SameOutcome ((Instr.push a).exec calls m) (execAll calls m (mend Rule.all (.push a))) := by
  rw [mend_push]
  split
  · obtain ⟨v, hv⟩ := m.exists_read ha.placed 64
    have hr10 : (m.setReg .r10 v).read 64 srcScratch = some v :=
      m.read_setReg_self .r10 (w := .quadword) v
    have hload : execAll calls m (mend Rule.all (.mov .quadword a srcScratch) ++
        mend Rule.all (.push srcScratch)) =
        execAll calls (m.setReg .r10 v) (mend Rule.all (.push srcScratch)) :=
      execAll_load (w := .quadword) hv .r10 _
    have hmend : mend Rule.all (.push srcScratch) = [.push srcScratch] := mend_push srcScratch
    rw [hload, hmend, execAll_singleton, exec_push hv, exec_push hr10]
    exact .next (((Alike.refl m).setReg_scratch (.inl rfl) v).push v)
  · rw [execAll_singleton]
    exact .refl _

/-! ## All instructions -/

theorem Operand.Target.exists_write (h : dst.Target) (m : State Bytes) {n : Nat} (v : BitVec n) :
    ∃ m', m.write v dst = some m' := by
  cases dst with
  | imm k => cases h.notImm
  | pseudo x => exact h.placed.elim
  | reg r | stack k | data x => exact ⟨_, rfl⟩

/-- Only divisions, calls and questions to unknown flags may have no outcome. -/
theorem Instr.Regular.exists_exec {i : Instr} (h : i.Regular) (hflags : m.flags.isSome)
    (hdivision : ∀ signed w a, i ≠ .division signed w a) (hcall : ∀ f, i ≠ .call f) :
    ∃ o, i.exec calls m = some o := by
  obtain ⟨flags, hflags⟩ := Option.isSome_iff_exists.1 hflags
  cases i with
  | mov w src dst =>
      obtain ⟨v, hv⟩ := m.exists_read h.1.placed w.bits
      obtain ⟨m', hm'⟩ := h.2.exists_write m v
      exact ⟨_, (effect_mov_eq hv).trans (congrArg _ hm')⟩
  | movsx src dst =>
      obtain ⟨v, hv⟩ := m.exists_read h.1.placed 32
      obtain ⟨m', hm'⟩ := h.2.exists_write m (v.signExtend 64)
      exact ⟨_, (effect_movsx_eq hv).trans (congrArg _ hm')⟩
  | movZeroExtend src dst =>
      obtain ⟨v, hv⟩ := m.exists_read h.1.placed 32
      obtain ⟨m', hm'⟩ := h.2.exists_write m (v.setWidth 64)
      exact ⟨_, (effect_movZeroExtend_eq hv).trans (congrArg _ hm')⟩
  | binary op w src dst =>
      obtain ⟨b, hb⟩ := Shape.exists_readSrc (s := .binary op) (m := m) (w := w) h.1 h.2.2
      obtain ⟨a, ha⟩ := m.exists_read h.2.1.placed w.bits
      obtain ⟨m', hm'⟩ := h.2.1.exists_write (m.setFlags none) (op.value a b)
      refine ⟨(.next, m'), (Shape.exec_instr (s := .binary op) hb).trans ?_⟩
      rw [Shape.outcome, ha, Option.bind_some, written, hm']
      rfl
  | cmp w src dst =>
      obtain ⟨b, hb⟩ := m.exists_read h.1.placed w.bits
      obtain ⟨a, ha⟩ := m.exists_read h.2.placed w.bits
      refine ⟨(.next, m.setFlags (some (.ofDifference a b))),
        (Shape.exec_instr (s := .cmp) hb).trans ?_⟩
      rw [Shape.outcome, ha]
      rfl
  | unary op w a =>
      obtain ⟨v, hv⟩ := m.exists_read h.placed w.bits
      obtain ⟨m', hm'⟩ := h.exists_write m (op.value v)
      refine ⟨(.next, if op = .not then m' else m'.setFlags none), ?_⟩
      show (m.read w.bits a).bind _ = _
      rw [hv]
      show (m.write (op.value v) a).bind _ = _
      rw [hm']
      rfl
  | setCC c a =>
      obtain ⟨m', hm'⟩ := h.exists_write m (if c.holds flags then 1#8 else 0#8)
      refine ⟨(.next, m'), ?_⟩
      show m.flags.bind _ = _
      rw [hflags]
      show (m.write (if c.holds flags then 1#8 else 0#8) a).bind _ = _
      rw [hm']
      rfl
  | idiv w a => exact absurd rfl (hdivision true w a)
  | div w a => exact absurd rfl (hdivision false w a)
  | push a =>
      obtain ⟨v, hv⟩ := m.exists_read h.placed 64
      exact ⟨_, exec_push hv⟩
  | jmpCC c target =>
      refine ⟨(if c.holds flags then .jump target else .next, m), ?_⟩
      show (m.flags.bind _) = _
      rw [hflags]
      rfl
  | call f => exact absurd rfl (hcall f)
  | _ => exact ⟨_, rfl⟩

/-- **Mending keeps the behaviour.** What comes out for an instruction is left in the same way as the
instruction, with the same memory, flags and registers apart from `r10` and `r11`. -/
theorem mend_keeps {i : Instr} (hi : i.Regular)
    (calls : String → State Bytes → Option (State Bytes)) (m : State Bytes) :
    SameOutcome (i.exec calls m) (execAll calls m (mend Rule.all i)) := by
  cases i with
  | mov w src dst =>
      exact Shape.execAll_mend (s := .mov) hi.1 hi.2.toRegular (fun _ => hi.2.notImm) (nofun)
  | binary op w src dst =>
      exact Shape.execAll_mend (s := .binary op) hi.1 hi.2.1.toRegular (fun _ => hi.2.1.notImm)
        hi.2.2
  | cmp w src dst =>
      exact Shape.execAll_mend (s := .cmp) hi.1 hi.2 (fun h => absurd rfl h) (nofun)
  | movsx src dst => exact execAll_mend_movsx hi.1 hi.2
  | movZeroExtend src dst => exact execAll_mend_movZeroExtend hi.1 hi.2
  | idiv w a => exact execAll_mend_division true w hi
  | div w a => exact execAll_mend_division false w hi
  | push a => exact execAll_mend_push hi
  -- no rule bears on the other instructions
  | _ =>
      rw [mend_of_none rfl, execAll_singleton]
      exact .refl _

/-- A product in memory of two factors in memory needs both registers. -/
theorem mend_keeps_product :
    (Instr.binary .mult .quadword (.data "x") (.stack (-8))).Regular ∧
      ∀ m : State Bytes,
        SameOutcome ((Instr.binary .mult .quadword (.data "x") (.stack (-8))).exec (fun _ => some) m)
          (execAll (fun _ => some) m
            (mend Rule.all (.binary .mult .quadword (.data "x") (.stack (-8))))) := by
  have hsrc : (Operand.data "x").Regular := ⟨trivial, by decide, by decide⟩
  have hdst : (Operand.stack (-8)).Target := ⟨⟨trivial, by decide, by decide⟩, rfl⟩
  have hregular : (Instr.binary .mult .quadword (.data "x") (.stack (-8))).Regular :=
    ⟨hsrc, hdst, fun h => Bool.noConfusion h⟩
  exact ⟨hregular, fun m => mend_keeps hregular (fun _ => some) m⟩

end IntegerC.Machine
