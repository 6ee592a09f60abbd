import IntegerC.Proofs.Machine.MendedRuns
import IntegerC.Proofs.Machine.Parameters

set_option autoImplicit false

/-! # Caller and callee agree

The code of a call, the call itself and the code at the beginning of the function that is called
together bring each argument into the variable of its parameter. They do so before variables have
places, when they have places, and when what the hardware does not accept was mended.
-/

namespace IntegerC.Machine

open ThreeAddress (Value)

variable {t : SymbolTable}

/-! ## Code that passes arguments -/

/-- An operand other than the registers that mending uses. -/
structure Operand.Unscratched (a : Operand) : Prop where
  ne_srcScratch : a ≠ srcScratch
  ne_dstScratch : a ≠ dstScratch

/-- A move, or something that is done to the stack, which does not use the registers of mending. -/
def Instr.Passing : Instr → Prop
  | .mov _ src dst => src.Unscratched ∧ dst.Unscratched ∧ dst.isImm = false
  | .push a => a.Unscratched
  | .allocateStack _ | .call _ => True
  | _ => False

theorem Operand.unscratched_ofValue (v : Value) : (Operand.ofValue v).Unscratched := by
  cases v <;> exact ⟨Operand.noConfusion, Operand.noConfusion⟩

theorem Operand.unscratched_ax : (Operand.reg .ax).Unscratched := ⟨by decide, by decide⟩

theorem Operand.unscratched_reg {r : Reg} (h : r ∈ argumentRegs) :
    (Operand.reg r).Unscratched := by
  refine ⟨fun e => ?_, fun e => ?_⟩
  · cases e
    exact absurd h (by decide)
  · cases e
    exact absurd h (by decide)

theorem Operand.unscratched_parameterPlace (i : Nat) : (parameterPlace i).Unscratched := by
  unfold parameterPlace
  split
  · rename_i h
    exact unscratched_reg (List.mem_of_getElem? h)
  · exact ⟨Operand.noConfusion, Operand.noConfusion⟩

/-- An operand other than a register of mending is regular once it is placed. -/
theorem Operand.Unscratched.place {a : Operand} (h : a.Unscratched) (l : Layout) :
    (l.place a).Regular := by
  refine ⟨l.placed_place a, ?_, ?_⟩
  all_goals
    cases a with
    | reg r => first | exact h.ne_srcScratch | exact h.ne_dstScratch
    | pseudo x =>
        cases hslot : l.slots.find? x with
        | none => rw [l.place_data hslot]; exact Operand.noConfusion
        | some d => rw [l.place_slot hslot]; exact Operand.noConfusion
    | _ => exact Operand.noConfusion

/-- Arguments go from values into registers for arguments, of which mending uses none. -/
theorem registerArguments_passing (vs : List Value) :
    ∀ rs ⊆ argumentRegs, Answers (registerArguments t vs rs) fun out => ∀ i ∈ out, i.Passing := by
  induction vs with
  | nil => exact fun rs _ => .pure (by simp)
  | cons v vs ih =>
      intro rs hrs
      cases rs with
      | nil => exact .pure (by simp)
      | cons r rs =>
          obtain ⟨hr, hrs⟩ := List.cons_subset.1 hrs
          rw [registerArguments]
          refine (Ensures.self _).bind fun w _ => (ih rs hrs).bind fun out ho => .pure ?_
          exact List.forall_mem_cons.2
            ⟨⟨Operand.unscratched_ofValue v, Operand.unscratched_reg hr, rfl⟩, ho⟩

/-- A push of a longword goes through `ax`, which mending does not use either. -/
theorem pushArgument_passing (v : Value) :
    Answers (pushArgument t v) fun out => ∀ i ∈ out, i.Passing := by
  have hv := Operand.unscratched_ofValue v
  cases v with
  | constant c => exact .pure (List.forall_mem_singleton.2 hv)
  | var x =>
      rw [pushArgument]
      refine (Ensures.self _).bind fun w _ => ?_
      cases w with
      | quadword => exact .pure (List.forall_mem_singleton.2 hv)
      | longword =>
          exact .pure (List.forall_mem_cons.2 ⟨⟨hv, Operand.unscratched_ax, rfl⟩,
            List.forall_mem_singleton.2 Operand.unscratched_ax⟩)

/-- Arguments are pushed by instructions that leave the registers of mending alone. -/
theorem pushArguments_passing (vs : List Value) :
    Answers (pushArguments t vs) fun out => ∀ i ∈ out, i.Passing := by
  induction vs with
  | nil => exact .pure (by simp)
  | cons v vs ih =>
      rw [pushArguments]
      exact (pushArgument_passing v).bind fun out ho => ih.bind fun outs hos =>
        .pure (List.forall_mem_append.2 ⟨ho, hos⟩)

theorem allocate_passing (n : Nat) : ∀ i ∈ allocate n, i.Passing := by
  unfold allocate
  split <;> simp [Instr.Passing]

theorem passing_passing (args : List Value) :
    Answers (passing t args) fun out => ∀ i ∈ out, i.Passing := by
  rw [passing]
  refine (registerArguments_passing args _ (List.Subset.refl _)).bind fun moves hm =>
    (pushArguments_passing _).bind fun pushes hp => .pure ?_
  simp only [List.forall_mem_append]
  exact ⟨⟨allocate_passing _, hm⟩, hp⟩

theorem parameterMoves_passing (names : List String) :
    ∀ i, Answers (parameterMoves t i names) fun out => ∀ j ∈ out, j.Passing := by
  induction names with
  | nil => exact fun i => .pure (by simp)
  | cons x names ih =>
      intro i
      rw [parameterMoves]
      refine (Ensures.self _).bind fun w _ => (ih (i + 1)).bind fun out ho => .pure ?_
      refine List.forall_mem_cons.2 ⟨⟨Operand.unscratched_parameterPlace i, ?_, rfl⟩, ho⟩
      exact Operand.unscratched_ofValue (.var x)

/-! ## Mended code that passes arguments -/

theorem SameOutcome.trans {M : Type} {o o' o'' : Option (Exit × State M)} (h : SameOutcome o o')
    (h' : SameOutcome o' o'') : SameOutcome o o'' := by
  cases h with
  | none => exact h'
  | some hx =>
      cases h' with
      | some hy => exact .some ⟨hx.1.trans hy.1, hx.2.trans hy.2⟩

theorem SameOutcome.exists_some {M : Type} {x : Exit × State M} {o : Option (Exit × State M)}
    (h : SameOutcome (some x) o) : ∃ y, o = some y ∧ x.1 = y.1 ∧ Alike x.2 y.2 := by
  cases h with
  | some hy => exact ⟨_, rfl, hy⟩

/-- Every call enters a function, with the address `ret` to return to. -/
def entering {M : Type} [Memory M] [StackMemory M] (ret : BitVec 64) :
    String → State M → Option (State M) :=
  fun _ m => some (m.entered ret)

section

variable {m m' m₁ : State Bytes} (ret : BitVec 64)

theorem State.entered_bytes (m : State Bytes) : m.entered ret = m.enter ret := rfl

theorem Alike.entered (h : Alike m m') : Alike (m.entered ret) (m'.entered ret) := by
  have hpush := (h.push ret).push m.memory.base
  have hsp := hpush.regs .sp (by decide) (by decide)
  rw [State.entered_bytes, State.entered_bytes, State.enter, State.enter, h.memory]
  refine ⟨?_, hpush.flags, hpush.regs⟩
  rw [State.rebase, State.rebase, hpush.memory, hsp]

/-- In states beside each other an instruction and what mending makes of it are left in the same
way. -/
theorem Instr.Passing.mended {i : Instr} (hi : i.Passing) (l : Layout) (h : Alike m m') :
    SameOutcome ((i.mapOperands l.place).exec (entering ret) m)
      (execAll (entering ret) m' (mend Rule.all (i.mapOperands l.place))) := by
  cases i with
  | mov w src dst =>
      obtain ⟨hs, hd, himm⟩ := hi
      have himm' : (l.place dst).isImm = false := (Operand.isImm_place l dst).trans himm
      obtain ⟨v, hv⟩ := m.exists_read (hs.place l).placed w.bits
      have hv' : m'.read w.bits (l.place src) = some v := (h.read (hs.place l) _).trans hv
      -- first the instruction in both states, then its mending in the second one
      have hbeside : SameOutcome ((Instr.mov w (l.place src) (l.place dst)).effect m)
          ((Instr.mov w (l.place src) (l.place dst)).effect m') := by
        rw [effect_mov_eq hv, effect_mov_eq hv']
        exact h.written (hd.place l) v
      exact hbeside.trans (Shape.execAll_mend (s := .mov) (hs.place l) (hd.place l)
        (fun _ => himm') nofun)
  | push a =>
      obtain ⟨v, hv⟩ := m.exists_read (Operand.Unscratched.place hi l).placed 64
      have hv' : m'.read 64 (l.place a) = some v :=
        (h.read (Operand.Unscratched.place hi l) _).trans hv
      have hbeside : SameOutcome ((Instr.push (l.place a)).exec (entering ret) m)
          ((Instr.push (l.place a)).exec (entering ret) m') := by
        rw [exec_push hv, exec_push hv']
        exact .next (h.push v)
      exact hbeside.trans (execAll_mend_push (Operand.Unscratched.place hi l))
  | allocateStack n =>
      have hmap : (Instr.allocateStack n).mapOperands l.place = .allocateStack n := rfl
      rw [hmap, mend_of_none rfl, execAll_singleton]
      refine .next (Alike.setFlags ?_ none)
      unfold State.moveStack
      rw [h.regs .sp (by decide) (by decide)]
      exact h.setReg (by decide) (by decide) _
  | call f =>
      have hmap : (Instr.call f).mapOperands l.place = .call f := rfl
      rw [hmap, mend_of_none rfl, execAll_singleton]
      exact .next (h.entered ret)
  | _ => exact hi.elim

theorem execAll_append {calls : String → State Bytes → Option (State Bytes)} {is js : List Instr}
    (h : execAll calls m is = some (.next, m')) :
    execAll calls m (is ++ js) = execAll calls m' js := by
  rw [← performAll_bytes] at h
  rw [← performAll_bytes, performAll_append h, performAll_bytes]

/-- What is mended runs to its end where the code does. -/
theorem mended_runs (l : Layout) (code : List Instr) (hcode : ∀ i ∈ code, i.Passing) :
    ∀ m m' : State Bytes, Alike m m' →
      execAll (entering ret) m (code.map (Instr.mapOperands l.place)) = some (.next, m₁) →
        ∃ m₁', execAll (entering ret) m'
          ((code.map (Instr.mapOperands l.place)).flatMap (mend Rule.all)) = some (.next, m₁') ∧
            Alike m₁ m₁' := by
  induction code with
  | nil =>
      intro m m' h hrun
      cases hrun
      exact ⟨m', rfl, h⟩
  | cons i code ih =>
      intro m m' h hrun
      obtain ⟨hi, hcode⟩ := List.forall_mem_cons.1 hcode
      have hmended := hi.mended ret l h
      rw [List.map_cons, execAll] at hrun
      split at hrun
      · rename_i m₂ hstep
        rw [hstep] at hmended
        obtain ⟨⟨e, m₂'⟩, hstep', rfl, halike⟩ := hmended.exists_some
        obtain ⟨m₁', hrun', halike'⟩ := ih hcode m₂ m₂' halike hrun
        refine ⟨m₁', ?_, halike'⟩
        rw [List.map_cons, List.flatMap_cons, execAll_append hstep', hrun']
      · rename_i hnot
        exact absurd hrun (hnot m₁)

end

/-! ## Arguments arrive -/

/-- The code `pass` ends with a call. Behind it each parameter is found where its argument was
passed, and behind the code `entry`, with which the function that is called begins, the variables
`params` hold the arguments. -/
def State.Delivers {M : Type} [Memory M] [StackMemory M] {types : VarTypes} (m : State M)
    (s : Store types) (ret : BitVec 64) (place : Operand → Operand) (args : List Value)
    (params : List String) (pass entry : List Instr) : Prop :=
  ∃ m₁ m₂, performAll (entering ret) m pass = some (.next, m₁) ∧
    (∀ (i : Nat) v, args[i]? = some v →
      m₁.read (Width.ofType (v.type types)).bits (parameterPlace i) =
        some (BitVec.ofInt _ (v.eval s))) ∧
    performAll (entering ret) m₁ entry = some (.next, m₂) ∧ m₂.Has s place params args

section

variable {args : List Value} {params : List String} {pass moves : List Instr}
  {s : Store t.varTypes}

/-- Making room in the frame does not move the parameters. -/
theorem read_parameterPlace_congr {M : Type} [Memory M] {m m' : State M}
    (hmemory : m'.memory = m.memory) (hregs : ∀ r, r ≠ .sp → m'.regs r = m.regs r) (n i : Nat) :
    m'.read n (parameterPlace i) = m.read n (parameterPlace i) := by
  cases hr : argumentRegs[i]? with
  | some r =>
      have hsp : r ≠ .sp := fun e => absurd (e ▸ List.mem_of_getElem? hr) (by decide)
      rw [parameterPlace_reg hr, State.read_reg, State.read_reg, hregs r hsp]
  | none =>
      rw [parameterPlace_stack (List.getElem?_eq_none_iff.1 hr)]
      show Memory.load m'.memory _ n = Memory.load m.memory _ n
      rw [hmemory]

theorem mapOperands_allocate (place : Operand → Operand) (n : Nat) :
    (allocate n).map (Instr.mapOperands place) = allocate n := by
  unfold allocate
  split <;> rfl

/-- Arguments arrive on every machine whose variables are apart, and on which the arguments last
while they are passed. -/
theorem delivers_of_lasts {M : Type} [Memory M] [StackMemory M] {place place' : Operand → Operand}
    (hpass : passing t args = .ok pass) (hmoves : parameterMoves t 0 params = .ok moves)
    (hparams : List.Forall₂ (fun x v => ∃ τ, (Value.var x).HasType t τ ∧ v.HasType t τ) params args)
    (hdistinct : params.Nodup) (hplace : Operand.Placing place) (hplace' : Operand.Placing place')
    (hhomes : Homes M t.varTypes place' params args.length) {m : State M}
    (hlasts : ∀ v ∈ args, m.Lasts s (m.regs .sp) (bytesFor args.length) (place (.ofValue v)) v)
    (hroom : bytesFor args.length + 16 ≤ 2 ^ 64) (ret : BitVec 64) (name : String) (n : Nat) :
    m.Delivers s ret place' args params ((pass ++ [Instr.call name]).map (Instr.mapOperands place))
      (allocate n ++ moves.map (Instr.mapOperands place')) := by
  have hargs : ∀ v ∈ args, ∃ τ, v.HasType t τ := by
    intro v hv
    obtain ⟨i, hi, rfl⟩ := List.getElem_of_mem hv
    obtain ⟨τ, -, hτ⟩ := hparams.get (hparams.length_eq ▸ hi) hi
    exact ⟨τ, hτ⟩
  -- the arguments are passed
  obtain ⟨m₁, hrun, hpassed⟩ := (passing_runs (s := s) (entering ret) hplace args hargs).ok_of_eq
    hpass m hlasts (by omega)
  have hcall : ((Instr.call name).mapOperands place).perform (entering ret) m₁ =
      some (.next, m₁.entered ret) := rfl
  have hread : ∀ (i : Nat) v, args[i]? = some v →
      (m₁.entered ret).read (Width.ofType (v.type t.varTypes)).bits (parameterPlace i) =
        some (BitVec.ofInt _ (v.eval s)) :=
    fun i v hv => hpassed.read_parameterPlace ret hroom hv
  -- room is made for the frame
  obtain ⟨m₂, hallocate, hmemory, -, hregs⟩ :=
    allocate_runs (entering ret) place' (m₁.entered ret) n
  have hread₂ : ∀ (i : Nat) v, args[i]? = some v →
      m₂.read (Width.ofType (v.type t.varTypes)).bits (parameterPlace (0 + i)) =
        some (BitVec.ofInt _ (v.eval s)) := by
    intro i v hv
    rw [Nat.zero_add, read_parameterPlace_congr hmemory hregs]
    exact hread i v hv
  -- the parameters are moved
  obtain ⟨m₃, hentry, hhas, -⟩ := (parameterMoves_runs (s := s) (entering ret) hplace' hhomes params
    0 args (List.Subset.refl _) hdistinct (by rw [hparams.length_eq]; omega) hparams).ok_of_eq
      hmoves m₂ hread₂
  refine ⟨m₁.entered ret, m₃, ?_, hread, ?_, hhas⟩
  · rw [List.map_append, performAll_append hrun]
    exact performAll_cons hcall
  · rw [← mapOperands_allocate place', performAll_append hallocate, hentry]

/-- So they do when the code is mended. -/
theorem State.Delivers.mended {m : State Bytes} {ret : BitVec 64} {l l' : Layout}
    {code entry : List Instr}
    (hcode : ∀ i ∈ code, i.Passing) (hentry : ∀ i ∈ entry, i.Passing)
    (h : m.Delivers s ret l'.place args params (code.map (Instr.mapOperands l.place))
      (entry.map (Instr.mapOperands l'.place))) :
    m.Delivers s ret l'.place args params
      ((code.map (Instr.mapOperands l.place)).flatMap (mend Rule.all))
      ((entry.map (Instr.mapOperands l'.place)).flatMap (mend Rule.all)) := by
  obtain ⟨m₁, m₂, hrun, hread, hrun', hhas⟩ := h
  rw [performAll_bytes] at hrun hrun'
  obtain ⟨m₁', hmended, halike⟩ := mended_runs ret l code hcode m m (.refl m) hrun
  obtain ⟨m₂', hmended', halike'⟩ := mended_runs ret l' entry hentry m₁ m₁' halike hrun'
  have hplace : ∀ i, (parameterPlace i).Regular := fun i => by
    have hi := (Operand.unscratched_parameterPlace i).place l
    rwa [l.placing.parameterPlace] at hi
  have hhome : ∀ x, (l'.place (.pseudo x)).Regular := fun x =>
    (Operand.unscratched_ofValue (.var x)).place l'
  refine ⟨m₁', m₂', ?_, fun i v hv => ?_, ?_, ?_⟩
  · rw [performAll_bytes, hmended]
  · rw [halike.read (hplace i)]
    exact hread i v hv
  · rw [performAll_bytes, hmended']
  · exact hhas.imp fun x v hx => (halike'.read (hhome x) _).trans hx

/-- Every parameter is named by the move of its argument. -/
theorem parameterMoves_names (names : List String) :
    ∀ i, Answers (parameterMoves t i names) fun moves =>
      ∀ x ∈ names, .pseudo x ∈ moves.flatMap Instr.operands := by
  induction names with
  | nil => exact fun i => .pure nofun
  | cons x names ih =>
      intro i
      rw [parameterMoves]
      refine (Ensures.self _).bind fun w _ => (ih (i + 1)).bind fun moves hmoves => .pure ?_
      rw [List.flatMap_cons]
      refine List.forall_mem_cons.2 ⟨?_, fun y hy => List.mem_append_right _ (hmoves y hy)⟩
      exact List.mem_append_left _ (by simp [Instr.operands])

theorem typeOf?_of_find? {x : String} {τ : CType} {a : Attributes} (h : t.find? x = some ⟨τ, a⟩) :
    t.typeOf? x = some τ := by
  rw [SymbolTable.typeOf?, h]
  rfl

/-- A parameter that is not static has a slot in every frame that is laid out for its move. -/
theorem Layout.slots_of_moves {body : List Instr} {l : Layout} {τs : List IntType}
    (hl : Layout.ofInstrs (.ofTable t) (moves ++ body) = .ok l)
    (hmoves : parameterMoves t 0 params = .ok moves)
    (hparams : List.Forall₂ (fun x τ => t.find? x = some ⟨.integer τ, .automatic⟩) params τs) :
    ∀ x ∈ params, (Symbols.ofTable t).find? x = some (.object (.ofType (t.varTypes x)) false) ∧
      ∃ d, l.slots.find? x = some d := by
  intro x hx
  obtain ⟨i, hi, rfl⟩ := List.getElem_of_mem hx
  have hi' : i < τs.length := hparams.length_eq ▸ hi
  have hfind : t.find? params[i] = some ⟨.integer τs[i], .automatic⟩ := hparams.get hi hi'
  have hobject : (Symbols.ofTable t).find? params[i] =
      some (.object (.ofType (t.varTypes params[i])) false) := by
    rw [SymbolTable.varTypes_eq (typeOf?_of_find? hfind)]
    exact Symbols.find?_ofTable hfind rfl
  have hplaces := (Layout.reserveAll_hasPlace _ Layout.empty).ok_of_eq hl
  have hnamed := (parameterMoves_names params 0).ok_of_eq hmoves _ hx
  obtain ⟨w, isStatic, hfind', hslot⟩ := hplaces.2 params[i]
    (by rw [List.flatMap_append]; exact List.mem_append_left _ hnamed)
  cases hobject.symm.trans hfind'
  exact ⟨hobject, hslot rfl⟩

theorem bytesFor_le (n : Nat) : bytesFor n ≤ 8 * n := by
  have hlength : argumentRegs.length = 6 := rfl
  unfold bytesFor paddingFor
  split <;> omega

theorem mapOperands_id (code : List Instr) : code.map (Instr.mapOperands id) = code := by
  rw [List.map_congr_left (g := id), List.map_id]
  intro i _
  cases i <;> rfl

/-- A call compiles to the passing of its arguments, the call itself and what follows it. -/
theorem passing_of_callCode {dst : Value} {τ : IntType} (hdst : dst.HasType t τ)
    (hargs : ∀ v ∈ args, ∃ τ, v.HasType t τ) (name : String) :
    ∃ pass rest, passing t args = .ok pass ∧
      callCode t name args dst = .ok (pass ++ .call name :: rest) := by
  obtain ⟨pass, hpass, -⟩ :=
    (passing_runs (s := Store.zero t.varTypes) (entering (M := Bytes) 0#64) placing_id args
      hargs).exists_ok
  rw [callCode_eq hdst, hpass]
  exact ⟨pass, _, rfl, rfl⟩

/-- **Caller and callee agree.** Code for a call is made for arguments of any types, and so is the
code that moves the parameters of the same types. -/
theorem callCode_delivers {τs : List IntType} {dst : Value} {τ : IntType}
    (hargs : List.Forall₂ (Value.HasType t) args τs)
    (hparams : List.Forall₂ (fun x τ => t.find? x = some ⟨.integer τ, .automatic⟩) params τs)
    (hdistinct : params.Nodup) (hdst : dst.HasType t τ) (name : String) :
    ∃ pass rest moves, callCode t name args dst = .ok (pass ++ .call name :: rest) ∧
      parameterMoves t 0 params = .ok moves ∧
      ∀ (s : Store t.varTypes) (ret : BitVec 64),
        (∀ m : State (Unplaced t.varTypes), m.memory.slots.Represents s →
          bytesFor args.length + 16 ≤ 2 ^ 64 →
            m.Delivers s ret id args params (pass ++ [Instr.call name]) moves) ∧
        ∀ caller body l l', Layout.ofInstrs (.ofTable t) caller = .ok l →
          Layout.ofInstrs (.ofTable t) (moves ++ body) = .ok l' →
          ∀ m : State Bytes, l.Frames t.varTypes args m (bytesFor args.length) →
            (∀ v ∈ args, m.read (Width.ofType (v.type t.varTypes)).bits (l.place (.ofValue v)) =
              some (BitVec.ofInt _ (v.eval s))) →
            l.size + l'.size + 8 * args.length + 32 ≤ 2 ^ 64 →
              m.Delivers s ret l'.place args params
                ((pass ++ [Instr.call name]).map (Instr.mapOperands l.place)) (l'.apply moves) ∧
              m.Delivers s ret l'.place args params
                (((pass ++ [Instr.call name]).map (Instr.mapOperands l.place)).flatMap
                  (mend Rule.all))
                ((l'.apply moves).flatMap (mend Rule.all)) := by
  have hboth : List.Forall₂ (fun x v => ∃ τ, (Value.var x).HasType t τ ∧ v.HasType t τ) params
      args := by
    refine List.forall₂_iff_get.2 ⟨hparams.length_eq.trans hargs.length_eq.symm, fun i hx hv => ?_⟩
    have hi : i < τs.length := hargs.length_eq ▸ hv
    exact ⟨τs[i], typeOf?_of_find? (hparams.get hx hi), hargs.get hv hi⟩
  have htyped : ∀ v ∈ args, ∃ τ, v.HasType t τ := forall_hasType_of_forall₂ hargs
  have hvars : ∀ x ∈ params, ∃ τ, t.typeOf? x = some (.integer τ) := by
    intro x hx
    obtain ⟨i, hi, rfl⟩ := List.getElem_of_mem hx
    obtain ⟨τ, hτ, -⟩ := hboth.get hi (hboth.length_eq ▸ hi)
    exact ⟨τ, hτ⟩
  obtain ⟨pass, rest, hpass, hcall⟩ := passing_of_callCode hdst htyped name
  obtain ⟨moves, hmoves, -⟩ := (parameterMoves_known params 0 hvars).exists_ok
  have hbytes := bytesFor_le args.length
  refine ⟨pass, rest, moves, hcall, hmoves, fun s ret => ⟨fun m hm hroom => ?_, ?_⟩⟩
  -- before placement every variable stands for itself
  · have h := delivers_of_lasts hpass hmoves hboth hdistinct placing_id placing_id
      (homes_unplaced _ _ _) (fun v _ => lasts_unplaced hm _ _ v) hroom ret name 0
    rwa [mapOperands_id, mapOperands_id] at h
  -- after placement the slots of each frame are apart, and mending changes no outcome
  · intro caller body l l' hl hl' m hframes hread hroom
    have hsize : l.used ≤ l.size ∧ l'.used ≤ l'.size :=
      ⟨Layout.le_alignUp _ (by decide), Layout.le_alignUp _ (by decide)⟩
    have hapart := (Layout.ofInstrs_apart caller).ok_of_eq hl
    have hapart' := (Layout.ofInstrs_apart (moves ++ body)).ok_of_eq hl'
    have hplaced := delivers_of_lasts hpass hmoves hboth hdistinct l.placing l'.placing
      (Layout.homes hapart' (Layout.slots_of_moves hl' hmoves hparams) (by omega))
      (fun v hv => hframes.lasts hapart (by omega) hv (hread v hv)) (by omega) ret name l'.size
    refine ⟨hplaced, ?_⟩
    have hallocate : (allocate l'.size).map (Instr.mapOperands l'.place) = allocate l'.size :=
      mapOperands_allocate _ _
    have happly : l'.apply moves =
        (allocate l'.size ++ moves).map (Instr.mapOperands l'.place) := by
      rw [List.map_append, hallocate]
      rfl
    have hpassing : ∀ i ∈ pass ++ [Instr.call name], i.Passing := List.forall_mem_append.2
      ⟨(passing_passing args).ok_of_eq hpass, List.forall_mem_singleton.2 trivial⟩
    have hentry : ∀ i ∈ allocate l'.size ++ moves, i.Passing := List.forall_mem_append.2
      ⟨allocate_passing _, (parameterMoves_passing params 0).ok_of_eq hmoves⟩
    rw [happly]
    refine State.Delivers.mended hpassing hentry ?_
    rw [← happly]
    exact hplaced

end

/-- A call with seven arguments: variables of both widths, one of which is static, and constants, one
of which does not fit into 32 bits. -/
theorem callCode_delivers_seven :
    let t : SymbolTable := [("a", .automatic .int), ("b", .automatic .long),
      ("g", ⟨.integer .long, .static (.initial ⟨.long, 3⟩) true⟩), ("p", .automatic .int),
      ("q", .automatic .long), ("r", .automatic .long), ("u", .automatic .int),
      ("v", .automatic .long), ("w", .automatic .unsignedInt), ("x", .automatic .int)]
    let args : List Value := [.var "a", .var "b", .constant ⟨.long, 2 ^ 40⟩, .constant ⟨.int, -1⟩,
      .var "g", .constant ⟨.unsignedInt, 9⟩, .var "a"]
    let s : Store t.varTypes := (((Store.zero _).set "a" (-7)).set "b" 5).set "g" 3
    let b : Bytes := ⟨4096#64, fun _ => 256#64, fun _ => 0#8⟩
    let m : State Bytes := ⟨fun _ => 4080#64, none,
      ((b.setWord 4092#64 (-7 : BitVec 32)).setWord 4080#64 5#64).setWord 256#64 3#64⟩
    let l : Layout := ⟨[("a", 4), ("b", 16)], 16⟩
    let l' : Layout := ⟨[("p", 4), ("q", 16), ("r", 24), ("u", 28), ("v", 40), ("w", 44),
      ("x", 48)], 48⟩
    ∃ pass rest moves, callCode t "f" args (.var "a") = .ok (pass ++ .call "f" :: rest) ∧
      parameterMoves t 0 ["p", "q", "r", "u", "v", "w", "x"] = .ok moves ∧
      m.Delivers s 77#64 l'.place args ["p", "q", "r", "u", "v", "w", "x"]
        (((pass ++ [Instr.call "f"]).map (Instr.mapOperands l.place)).flatMap (mend Rule.all))
        ((l'.apply moves).flatMap (mend Rule.all)) := by
  intro t args s b m l l'
  have hargs : List.Forall₂ (Value.HasType t) args
      [.int, .long, .long, .int, .long, .unsignedInt, .int] := by
    repeat first | exact .nil | refine .cons rfl ?_
  have hparams : List.Forall₂ (fun x τ => t.find? x = some ⟨.integer τ, .automatic⟩)
      ["p", "q", "r", "u", "v", "w", "x"] [.int, .long, .long, .int, .long, .unsignedInt, .int] := by
    repeat first | exact .nil | refine .cons rfl ?_
  have hdst : (Value.var "a").HasType t .int := rfl
  obtain ⟨pass, rest, moves, hcall, hmoves, h⟩ :=
    callCode_delivers hargs hparams (by decide) hdst "f"
  have hcaller : Layout.ofInstrs (.ofTable t) [.movsx (.pseudo "a") (.pseudo "b")] = .ok l := by
    decide +kernel
  have hcallee : ((parameterMoves t 0 ["p", "q", "r", "u", "v", "w", "x"]).bind
      fun moves => Layout.ofInstrs (.ofTable t) (moves ++ [])) = .ok l' := by
    decide +kernel
  rw [hmoves] at hcallee
  have hframes : l.Frames t.varTypes args m (bytesFor args.length) := by
    refine ⟨by decide +kernel, fun x hx hslot => ?_⟩
    have hx' : x = "a" ∨ x = "b" ∨ x = "g" ∨ x = "a" := by
      simpa [args] using hx
    rcases hx' with rfl | rfl | rfl | rfl
    · cases hslot
    · cases hslot
    · unfold Bytes.Outside
      decide +kernel
    · cases hslot
  refine ⟨pass, rest, moves, hcall, hmoves, ((h s 77#64).2 _ _ l l' hcaller hcallee m hframes ?_
    (by decide +kernel)).2⟩
  simp only [args, List.forall_mem_cons]
  decide +kernel

end IntegerC.Machine
