import IntegerC.Proofs.Machine.Arguments
import IntegerC.Proofs.Machine.Layouts

set_option autoImplicit false

/-! # Parameters

A function that is called finds each argument where the code at its beginning looks for the
parameter: in a register, or above its frame. Moving the parameters to their variables one after the
other does not disturb those that are still to be moved, so in the end each variable holds its
argument. That asks for variables whose places are apart, as they are before variables have places
in memory and as they are in a frame.
-/

namespace IntegerC.Machine

open StackMemory (bytes setBytes)
open ThreeAddress (Value)

variable {M : Type} [Memory M] {types : VarTypes} {t : SymbolTable}

/-! ## Places of parameters -/

theorem parameterPlace_reg {i : Nat} {r : Reg} (h : argumentRegs[i]? = some r) :
    parameterPlace i = .reg r := by
  rw [parameterPlace, h]

theorem parameterPlace_stack {i : Nat} (h : argumentRegs.length ≤ i) :
    parameterPlace i = .stack (16 + 8 * ((i - argumentRegs.length : Nat) : Int)) := by
  rw [parameterPlace, List.getElem?_eq_none h]
  exact congrArg (fun k => Operand.stack (16 + 8 * k)) (by omega)

theorem Operand.Placing.parameterPlace {place : Operand → Operand} (h : Operand.Placing place)
    (i : Nat) : place (parameterPlace i) = Machine.parameterPlace i := by
  refine h _ fun x => ?_
  unfold Machine.parameterPlace
  split <;> exact Operand.noConfusion

/-- The low bytes of a word on the stack. -/
theorem Bytes.low_word {p : Bytes} {a v : BitVec 64} (h : p.word a 8 = v) (w : Width) :
    (p.word a (w.bits / 8)).setWidth w.bits = v.setWidth w.bits := by
  cases w with
  | quadword =>
      rw [← h]
      rfl
  | longword =>
      have hlow : (p.word a 8).setWidth (8 * 4) = p.word a 4 := Bytes.setWidth_word (by decide)
      rw [← h]
      exact (BitVec.setWidth_eq _).trans hlow.symm

theorem State.read_reg (m : State M) (r : Reg) (n : Nat) :
    m.read n (.reg r) = some ((m.regs r).setWidth n) := rfl

section

variable [StackMemory M]

namespace State

/-- The state in which a function begins that is called with the address `ret` to return to. -/
def entered (m : State M) (ret : BitVec 64) : State M := .ofStack m.memory (m.stack.enter ret)

variable (m : State M)

theorem ofStack_regs (p : M) (b : State Bytes) : (ofStack p b).regs = b.regs := rfl

theorem entered_regs (ret : BitVec 64) {r : Reg} (h : r ≠ .sp) :
    (m.entered ret).regs r = m.regs r := by
  rw [entered, ofStack_regs, enter_regs _ _ h]
  rfl

theorem bytes_entered (ret : BitVec 64) :
    bytes (m.entered ret).memory = (m.stack.enter ret).memory :=
  StackMemory.bytes_setBytes ..

theorem read_stack (offset : Int) (n : Nat) : m.read n (.stack offset) =
    some (((bytes m.memory).word ((bytes m.memory).base + BitVec.ofInt 64 offset) (n / 8)).setWidth
      n) :=
  StackMemory.load_stack m.memory offset n

end State

variable {m : State M} {s : Store types} {args : List Value}

/-- Each parameter is found where its argument was passed. -/
theorem Passed.read_parameterPlace (h : Passed s args m) (ret : BitVec 64)
    (hroom : bytesFor args.length + 16 ≤ 2 ^ 64) {i : Nat} {v : Value} (hv : args[i]? = some v) :
    (m.entered ret).read (Width.ofType (v.type types)).bits (parameterPlace i) =
      some (BitVec.ofInt _ (v.eval s)) := by
  cases hr : argumentRegs[i]? with
  | some r =>
      have hsp : r ≠ .sp := fun e => absurd (e ▸ List.mem_of_getElem? hr) (by decide)
      rw [parameterPlace_reg hr, ← h.regs i v r hv hr, State.read_reg, State.read_reg,
        State.entered_regs m ret hsp]
  | none =>
      have hi : argumentRegs.length ≤ i := List.getElem?_eq_none_iff.1 hr
      obtain ⟨ws, hwords, hfits⟩ := h.words
      have hlength : args.length - argumentRegs.length = ws.length := by
        rw [← List.length_drop, hfits.length_eq]
      unfold bytesFor at hroom
      have henter := m.stack.enter_words ret hwords (by omega)
      -- argument number `i` stands two words above its number among the words
      have hv' : (args.drop argumentRegs.length)[i - argumentRegs.length]? = some v := by
        rw [List.getElem?_drop, ← hv]
        congr 1
        omega
      obtain ⟨hlt, hget⟩ := List.getElem?_eq_some_iff.1 hv'
      have hlt' : i - argumentRegs.length < ws.length := hfits.length_eq ▸ hlt
      have hfit : Value.Fits s v ws[i - argumentRegs.length] := hget ▸ hfits.get hlt hlt'
      have hword := henter (i - argumentRegs.length + 2) _ (List.getElem?_eq_getElem hlt')
      have hoffset : BitVec.ofInt 64 (16 + 8 * ((i - argumentRegs.length : Nat) : Int)) =
          BitVec.ofNat 64 (8 * (i - argumentRegs.length + 2)) := by
        rw [← BitVec.ofInt_natCast]
        congr 1
        omega
      rw [parameterPlace_stack hi, State.read_stack, State.bytes_entered, hoffset,
        Bytes.low_word hword]
      exact congrArg some hfit

end

/-! ## Moving parameters -/

/-- The places that are given to the variables `xs` are apart: what is written into one of them is
read there, and neither what is in the others changes nor the first `n` parameters. -/
structure Homes (M : Type) [Memory M] (types : VarTypes) (place : Operand → Operand)
    (xs : List String) (n : Nat) : Prop where
  write : ∀ x ∈ xs, ∀ (m : State M) (v : BitVec (Width.ofType (types x)).bits),
    ∃ m', m.write v (place (.pseudo x)) = some m' ∧
      m'.read _ (place (.pseudo x)) = some v ∧
      (∀ y ∈ xs, y ≠ x → m'.read (Width.ofType (types y)).bits (place (.pseudo y)) =
        m.read _ (place (.pseudo y))) ∧
      ∀ i < n, ∀ w : Width, m'.read w.bits (parameterPlace i) = m.read w.bits (parameterPlace i)

def State.Has (m : State M) (s : Store types) (place : Operand → Operand) (xs : List String)
    (vs : List Value) : Prop :=
  List.Forall₂ (fun x v => m.read (Width.ofType (types x)).bits (place (.pseudo x)) =
    some (BitVec.ofInt _ (v.eval s))) xs vs

section

variable [StackMemory M] (calls : String → State M → Option (State M)) {place : Operand → Operand}
  {s : Store t.varTypes} {xs : List String} {n : Nat}

theorem perform_mov {m m' : State M} {w : Width} {src dst : Operand} {v : BitVec w.bits}
    (h : m.read w.bits src = some v) (hw : m.write v dst = some m') :
    (Instr.mov w src dst).perform calls m = some (.next, m') := by
  show (Instr.mov w src dst).effect m = _
  simp [Instr.effect, h, hw]

/-- The parameters that are still to be moved stay where they are, and so do those that were. -/
theorem parameterMoves_runs (hplace : Operand.Placing place)
    (hhomes : Homes M t.varTypes place xs n) (names : List String) :
    ∀ (i : Nat) (vs : List Value), names ⊆ xs → names.Nodup → i + names.length ≤ n →
      List.Forall₂ (fun x v => ∃ τ, (Value.var x).HasType t τ ∧ v.HasType t τ) names vs →
      Succeeds (parameterMoves t i names) fun moves => ∀ m : State M,
        (∀ (j : Nat) v, vs[j]? = some v →
          m.read (Width.ofType (v.type t.varTypes)).bits (parameterPlace (i + j)) =
            some (BitVec.ofInt _ (v.eval s))) →
        ∃ m', performAll calls m (moves.map (Instr.mapOperands place)) = some (.next, m') ∧
          m'.Has s place names vs ∧
          ∀ y ∈ xs, y ∉ names → m'.read (Width.ofType (t.varTypes y)).bits (place (.pseudo y)) =
            m.read _ (place (.pseudo y)) := by
  induction names with
  | nil =>
      intro i vs _ _ _ h
      cases h
      exact .pure fun m _ => ⟨m, rfl, .nil, fun _ _ _ => rfl⟩
  | cons x names ih =>
      intro i vs hsub hnodup hn h
      obtain ⟨hx, hnames⟩ := List.nodup_cons.1 hnodup
      obtain ⟨hmem, hsub⟩ := List.cons_subset.1 hsub
      rw [List.length_cons] at hn
      cases h with
      | @cons _ v _ vs hτ htypes =>
      obtain ⟨τ, hvar, hv⟩ := hτ
      have hvarType : t.varTypes x = τ := hvar.type_eq
      have hwidth : t.varTypes x = v.type t.varTypes := hvarType.trans hv.type_eq.symm
      rw [parameterMoves, valueWidth_eq hvar, ← hvarType]
      refine (ih (i + 1) vs hsub hnames (by omega) htypes).bind fun moves hmoves =>
        .pure fun m hm => ?_
      obtain ⟨m₁, hwrite, hread, hothers, hparams⟩ :=
        hhomes.write x hmem m (BitVec.ofInt _ (v.eval s))
      have hfirst : (Instr.mov (.ofType (t.varTypes x)) (parameterPlace i) (.pseudo x)).mapOperands
          place = .mov (.ofType (t.varTypes x)) (parameterPlace i) (place (.pseudo x)) := by
        rw [Instr.mapOperands, hplace.parameterPlace]
      have harg : m.read (Width.ofType (t.varTypes x)).bits (parameterPlace i) =
          some (BitVec.ofInt _ (v.eval s)) := by
        rw [hwidth]
        exact hm 0 v rfl
      -- the first write goes to the frame, and the later parameters are elsewhere
      have hrest : ∀ (j : Nat) v, vs[j]? = some v →
          m₁.read (Width.ofType (v.type t.varTypes)).bits (parameterPlace (i + 1 + j)) =
            some (BitVec.ofInt _ (v.eval s)) := by
        intro j v' hv'
        have hj : j < names.length := htypes.length_eq ▸ (List.getElem?_eq_some_iff.1 hv').1
        rw [hparams _ (by omega), Nat.add_right_comm]
        exact hm (j + 1) v' hv'
      obtain ⟨m', hrun, hhas, hkeep⟩ := hmoves m₁ hrest
      refine ⟨m', ?_, .cons ?_ hhas, fun y hy hnot => ?_⟩
      · rw [List.map_cons, hfirst, performAll_cons (perform_mov calls harg hwrite), hrun]
      · rw [hkeep x hmem hx, hread]
      · obtain ⟨hne, hnot⟩ := not_or.1 (mt List.mem_cons.2 hnot)
        rw [hkeep y hy hnot, hothers y hy hne]

end

/-! ## Variables without places -/

theorem placing_id : Operand.Placing id := fun _ _ => rfl

namespace Unplaced

/-- The memory in which the variable `x` holds the bits `v`. -/
def put (p : Unplaced types) (x : String) (v : BitVec (Width.ofType (types x)).bits) :
    Unplaced types where
  slots := ⟨fun y => if h : y = x then h ▸ v else p.slots.get y⟩
  bytes := p.bytes

variable {m : State (Unplaced types)} (p : Unplaced types) {x y : String}
  (v : BitVec (Width.ofType (types x)).bits)

theorem put_self : (p.put x v).slots.get x = v := by
  simp [put]

theorem put_of_ne (h : y ≠ x) : (p.put x v).slots.get y = p.slots.get y := by
  simp [put, h]

theorem read_pseudo (m : State (Unplaced types)) (x : String) :
    m.read (Width.ofType (types x)).bits (.pseudo x) = some (m.memory.slots.get x) := by
  have hload : m.read (Width.ofType (types x)).bits (.pseudo x) =
      if (Width.ofType (types x)).bits ≤ (Width.ofType (types x)).bits then
        some ((m.memory.slots.get x).setWidth _) else none := rfl
  rw [hload, if_pos (Nat.le_refl _), BitVec.setWidth_eq]

/-- A variable without a place is written with the bits of its own width. -/
theorem write_pseudo (m : State (Unplaced types)) (x : String)
    (v : BitVec (Width.ofType (types x)).bits) :
    m.write v (.pseudo x) = some ⟨m.regs, m.flags, m.memory.put x v⟩ := by
  have hstore : Memory.store m.memory.slots (.pseudo x) v = some (m.memory.put x v).slots := by
    have hslots : Memory.store m.memory.slots (.pseudo x) v =
        if (Width.ofType (types x)).bits ≤ (Width.ofType (types x)).bits then
          some (⟨fun y => if y = x then patch (m.memory.slots.get y) v else
            m.memory.slots.get y⟩ : Slots types) else none := rfl
    rw [hslots, if_pos (Nat.le_refl _), put]
    congr 2
    funext y
    split
    · rename_i h
      subst h
      exact patch_self _ _
    · rfl
  have hwrite : m.write v (.pseudo x) = ((Memory.store m.memory.slots (.pseudo x) v).map
      fun slots => (⟨slots, m.memory.bytes⟩ : Unplaced types)).map
        fun memory => ⟨m.regs, m.flags, memory⟩ := rfl
  rw [hwrite, hstore]
  rfl

end Unplaced

/-- Before placement the places of parameters are apart, as each is a variable of its own. -/
theorem homes_unplaced (types : VarTypes) (xs : List String) (n : Nat) :
    Homes (Unplaced types) types id xs n where
  write x _ m v := by
    refine ⟨_, Unplaced.write_pseudo m x v, ?_, fun y _ hne => ?_, fun i _ w => ?_⟩
    · rw [id, Unplaced.read_pseudo, Unplaced.put_self]
    · rw [id, Unplaced.read_pseudo, Unplaced.read_pseudo, Unplaced.put_of_ne _ _ hne]
    · unfold parameterPlace
      split <;> rfl

/-! ## Variables in a frame -/

namespace Bytes

variable (p : Bytes)

/-- What is written at one place of a frame is not seen at another one. -/
theorem word_setWord_stack {o o' : Int} {n k : Nat} (v : BitVec n)
    (h : (o' + k ≤ o ∧ o - o' + (n / 8 : Nat) ≤ 2 ^ 64) ∨
      (o + (n / 8 : Nat) ≤ o' ∧ o' - o + k ≤ 2 ^ 64)) :
    (p.setWord (p.base + BitVec.ofInt 64 o) v).word (p.base + BitVec.ofInt 64 o') k =
      p.word (p.base + BitVec.ofInt 64 o') k := by
  refine word_congr fun i hi => byte_setWord _ _ _ _ ?_
  have hdistance : p.base + BitVec.ofInt 64 o' + BitVec.ofNat 64 i - (p.base + BitVec.ofInt 64 o) =
      BitVec.ofInt 64 (o' - o + i) := by
    rw [BitVec.ofInt_add, BitVec.ofInt_natCast, Int.sub_eq_add_neg, BitVec.ofInt_add,
      BitVec.ofInt_neg]
    grind
  rw [hdistance, BitVec.toNat_ofInt]
  omega

theorem word_setWord_width (a : BitVec 64) {w : Width} (v : BitVec w.bits) :
    ((p.setWord a v).word a (w.bits / 8)).setWidth w.bits = v := by
  cases w with
  | longword =>
      exact (BitVec.setWidth_eq _).trans (word_setWord (k := 4) p a (by decide) v)
  | quadword =>
      exact (BitVec.setWidth_eq _).trans (word_setWord (k := 8) p a (by decide) v)

end Bytes

theorem Layout.placing (l : Layout) : Operand.Placing l.place := by
  intro a h
  cases a with
  | pseudo x => exact absurd rfl (h x)
  | _ => rfl

theorem Layout.place_slot {l : Layout} {x : String} {d : Nat} (h : l.slots.find? x = some d) :
    l.place (.pseudo x) = .stack (-(d : Int)) := by
  rw [place, h]

theorem Layout.place_data {l : Layout} {x : String} (h : l.slots.find? x = none) :
    l.place (.pseudo x) = .data x := by
  rw [place, h]

theorem Width.bits_div (w : Width) : w.bits / 8 = w.size := by
  cases w <;> rfl

/-- Variables with slots are apart, and the parameters stand above all slots. -/
theorem Layout.homes {syms : Symbols} {l : Layout} (h : l.Apart syms) {xs : List String} {n : Nat}
    (hxs : ∀ x ∈ xs, syms.find? x = some (.object (.ofType (types x)) false) ∧
      ∃ d, l.slots.find? x = some d)
    (hroom : l.used + 16 + 8 * n ≤ 2 ^ 64) : Homes Bytes types l.place xs n where
  write x hx m v := by
    obtain ⟨hobject, d, hd⟩ := hxs x hx
    obtain ⟨w, hw, hlow, hhigh⟩ := h.within x d hd
    cases hobject.symm.trans hw
    have hbits := Width.bits_div (.ofType (types x))
    rw [l.place_slot hd]
    refine ⟨_, rfl, ?_, fun y hy hne => ?_, fun i hi u => ?_⟩
    · rw [State.read_stack]
      exact congrArg some (m.memory.word_setWord_width _ v)
    -- two slots do not share a byte, so the second one keeps its word
    · obtain ⟨hobject', e, he⟩ := hxs y hy
      obtain ⟨w', hw', hlow', hhigh'⟩ := h.within y e he
      cases hobject'.symm.trans hw'
      have hapart := h.apart x y d e _ _ hd he hne.symm hobject hobject'
      have hbits' := Width.bits_div (.ofType (types y))
      rw [l.place_slot he, State.read_stack, State.read_stack]
      refine congrArg (fun b => some (BitVec.setWidth _ b)) (m.memory.word_setWord_stack v ?_)
      rw [hbits, hbits']
      omega
    -- arguments on the stack are above the frame, and the others are in registers
    · cases hr : argumentRegs[i]? with
      | some r => rw [parameterPlace_reg hr, State.read_reg, State.read_reg]
      | none =>
          have hsize : u.size ≤ 8 := by
            cases u <;> decide
          rw [parameterPlace_stack (List.getElem?_eq_none_iff.1 hr), State.read_stack,
            State.read_stack]
          refine congrArg (fun b => some (BitVec.setWidth _ b)) (m.memory.word_setWord_stack v ?_)
          rw [hbits, u.bits_div]
          omega

/-! ## Arguments keep their values while others are passed -/

/-- Nothing that is pushed touches variables without places. -/
theorem lasts_unplaced {m : State (Unplaced types)} {s : Store types}
    (h : m.memory.slots.Represents s) (top : BitVec 64) (n : Nat) (v : Value) :
    m.Lasts s top n (.ofValue v) v := by
  intro m' hm' _
  cases v with
  | constant c =>
      have hread : m'.read (Width.ofType c.type).bits (.imm c.value) =
          some (BitVec.ofInt _ c.value) := rfl
      exact hread.trans (congrArg some (IntType.ofInt_wrap c.type c.value).symm)
  | var x =>
      have hslots : m'.memory.slots = m.memory.slots := by
        rw [hm']
        rfl
      exact (Unplaced.read_pseudo m' x).trans (congrArg some ((congrArg (Slots.get · x) hslots).trans
        (h x)))

/-- The stack begins at the end of the slots, and those of the values that are variables without
slots keep out of the next `n` bytes of it. -/
structure Layout.Frames (l : Layout) (types : VarTypes) (vs : List Value) (m : State Bytes)
    (n : Nat) : Prop where
  top : m.regs .sp = m.memory.base - BitVec.ofNat 64 l.size
  data : ∀ x, .var x ∈ vs → l.slots.find? x = none → ∀ i < (Width.ofType (types x)).size,
    Bytes.Outside (m.regs .sp) n (m.memory.symbols x + BitVec.ofNat 64 i)

/-- The bytes of a slot stand above the stack that begins at the end of the slots. -/
theorem Layout.Frames.outside {l : Layout} {vs : List Value} {m : State Bytes} {n : Nat}
    (h : l.Frames types vs m n) {d i : Nat} (hd : d ≤ l.size)
    (hroom : l.size - d + i + n < 2 ^ 64) :
    Bytes.Outside (m.regs .sp) n
      (m.memory.base + BitVec.ofInt 64 (-(d : Int)) + BitVec.ofNat 64 i) := by
  have hsize : BitVec.ofNat 64 l.size = BitVec.ofNat 64 (l.size - d) + BitVec.ofNat 64 d := by
    rw [← BitVec.ofNat_add]
    congr 1
    omega
  have hdistance : m.memory.base + BitVec.ofInt 64 (-(d : Int)) + BitVec.ofNat 64 i - m.regs .sp =
      BitVec.ofNat 64 (l.size - d + i) := by
    rw [h.top, BitVec.ofNat_add, hsize, BitVec.ofInt_neg, BitVec.ofInt_natCast]
    grind
  rw [Bytes.Outside, hdistance, BitVec.toNat_ofNat]
  omega

theorem State.read_data (m : State Bytes) (x : String) (n : Nat) :
    m.read n (.data x) = some ((m.memory.word (m.memory.symbols x) (n / 8)).setWidth n) := rfl

/-- What is pushed lies below the slots of the frame. -/
theorem Layout.Frames.lasts {l : Layout} {vs : List Value} {m : State Bytes} {n : Nat}
    (h : l.Frames types vs m n) {syms : Symbols} (hl : l.Apart syms)
    (hroom : l.size + 8 + n ≤ 2 ^ 64) {s : Store types} {v : Value} (hv : v ∈ vs)
    (hread : m.read (Width.ofType (v.type types)).bits (l.place (.ofValue v)) =
      some (BitVec.ofInt _ (v.eval s))) :
    m.Lasts s (m.regs .sp) n (l.place (.ofValue v)) v := by
  intro m' _ hsame
  rw [← hread]
  cases v with
  | constant c => rfl
  | var x =>
      have hbits : (Width.ofType (types x)).bits / 8 = (Width.ofType (types x)).size :=
        Width.bits_div _
      have hsize : (Width.ofType (types x)).size ≤ 8 := by
        cases Width.ofType (types x) <;> decide
      rw [Operand.ofValue]
      -- a slot is in the frame, and any other variable in the data section
      cases hslot : l.slots.find? x with
      | some d =>
          obtain ⟨w, -, hlow, hhigh⟩ := hl.within x d hslot
          have hused : l.used ≤ l.size := le_alignUp _ (by decide)
          have hword := hsame.word (a := m.memory.base + BitVec.ofInt 64 (-(d : Int)))
            (k := (Width.ofType (types x)).bits / 8) fun i hi =>
              h.outside (by omega) (by omega)
          have hbase : m'.memory.base = m.memory.base := hsame.base
          rw [l.place_slot hslot, State.read_stack, State.read_stack]
          show some ((m'.memory.word (m'.memory.base + _) _).setWidth _) = _
          rw [hbase]
          exact congrArg (fun b => some (BitVec.setWidth _ b)) hword
      | none =>
          have hword := hsame.word (a := m.memory.symbols x)
            (k := (Width.ofType (types x)).bits / 8) fun i hi =>
              h.data x hv hslot i (by omega)
          have hsymbols : m'.memory.symbols = m.memory.symbols := hsame.symbols
          rw [l.place_data hslot, State.read_data, State.read_data, hsymbols]
          exact congrArg (fun b => some (BitVec.setWidth _ b)) hword

end IntegerC.Machine
