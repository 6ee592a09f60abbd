import IntegerC.Proofs.ThreeAddress.ExprRuns

set_option autoImplicit false

/-! # Paths of control

A path of control follows jumps and falls through from one instruction to the next, whatever the
values are. `Safe` says of the paths from a place that they read no variable of a certain kind
before it is written, with a bound on their length so that loops need no special treatment. The
pieces that the code of a program is put together from are gone through once: what is asked for
behind a piece is enough in front of it. `Enclosed` says that jumps stay inside a piece of code.
-/

namespace IntegerC.ThreeAddress

/-! ## What instructions read and write -/

/-- The variable that a value stands for, if it is not a constant. -/
def Value.names : Value → List String
  | constant _ => []
  | var x => [x]

namespace Instr

def sources : Instr → List Value
  | ret v | jumpIfZero v _ | jumpIfNotZero v _ => [v]
  | signExtend src _ | zeroExtend src _ | truncate src _ | copy src _ | unary _ src _ => [src]
  | binary _ left right _ => [left, right]
  | call _ args _ => args
  | jump _ | label _ => []

def destination? : Instr → Option Value
  | signExtend _ dst | zeroExtend _ dst | truncate _ dst | copy _ dst | unary _ _ dst
  | binary _ _ _ dst | call _ _ dst => some dst
  | ret _ | jump _ | jumpIfZero _ _ | jumpIfNotZero _ _ | label _ => none

def reads (i : Instr) : List String := i.sources.flatMap Value.names

def writes (i : Instr) : List String := i.destination?.toList.flatMap Value.names

def target? : Instr → Option String
  | jump l | jumpIfZero _ l | jumpIfNotZero _ l => some l
  | _ => none

def fallsThrough : Instr → Bool
  | ret _ | jump _ => false
  | _ => true

theorem mem_reads {i : Instr} {x : String} : x ∈ i.reads ↔ .var x ∈ i.sources := by
  rw [reads, List.mem_flatMap]
  constructor
  · rintro ⟨v, hv, hx⟩
    cases v with
    | constant c => cases hx
    | var y =>
        obtain rfl : x = y := by simpa [Value.names] using hx
        exact hv
  · exact fun h => ⟨_, h, List.mem_cons_self⟩

theorem mem_writes {i : Instr} {x : String} : x ∈ i.writes ↔ i.destination? = some (.var x) := by
  rw [writes]
  cases i.destination? with
  | none => simp
  | some v => cases v <;> simp [Value.names, eq_comm]

/-- What writes to a variable does not jump. -/
theorem target?_of_destination? {i : Instr} {dst : Value} (h : i.destination? = some dst) :
    i.target? = none := by
  cases i <;> first | rfl | cases h

end Instr

/-! ## Paths -/

/-- Control may go from one place in the code to another one in one step. -/
inductive Goes (code : List Instr) : Nat → Nat → Prop
  | next {pc : Nat} {i : Instr} (hi : code[pc]? = some i) (h : i.fallsThrough = true) :
      Goes code pc (pc + 1)
  | jump {pc pc' : Nat} {i : Instr} {l : String} (hi : code[pc]? = some i)
      (h : i.target? = some l) (hl : position? code l = some pc') : Goes code pc pc'

/-- Control may get from the entry of the code to a place by way of other places, the latest of them
first. -/
inductive Reaches (code : List Instr) : List Nat → Nat → Prop
  | entry : Reaches code [] 0
  | go {passed : List Nat} {pc pc' : Nat} (h : Reaches code passed pc) (h' : Goes code pc pc') :
      Reaches code (pc :: passed) pc'

/-- On every path from the entry, an instruction that writes `x` is passed before `x` is read. -/
def WrittenFirst (code : List Instr) (x : String) : Prop :=
  ∀ passed pc i, Reaches code passed pc → code[pc]? = some i → x ∈ i.reads →
    ∃ pc' ∈ passed, ∃ i', code[pc']? = some i' ∧ x ∈ i'.writes

/-- On the paths of less than `n` steps from a place, no variable with `kept` is read before it is
written, if those in `written` count as written. -/
def Safe (code : List Instr) (kept : String → Prop) : Nat → Nat → List String → Prop
  | 0, _, _ => True
  | n + 1, pc, written => ∀ i, code[pc]? = some i →
      (∀ x ∈ i.reads, kept x → x ∈ written) ∧
        ∀ pc', Goes code pc pc' → Safe code kept n pc' (i.writes ++ written)

/-- None of the values is a variable with `kept`, unless that was written. -/
def Ready (kept : String → Prop) (written : List String) (vs : List Value) : Prop :=
  ∀ v ∈ vs, ∀ x ∈ v.names, kept x → x ∈ written

variable {code : List Instr} {kept : String → Prop} {written written' : List String}
  {pc pc' n m : Nat} {i : Instr} {rest : List Instr} {vs vs' : List Value}

theorem Ready.mono (h : written ⊆ written') (hv : Ready kept written vs) : Ready kept written' vs :=
  fun v hv' x hx hk => h (hv v hv' x hx hk)

theorem Ready.reads (h : Ready kept written vs) (hi : i.sources ⊆ vs) :
    ∀ x ∈ i.reads, kept x → x ∈ written :=
  fun x hx hk => h _ (hi (Instr.mem_reads.1 hx)) x List.mem_cons_self hk

/-- A variable that was just written may be read. -/
theorem ready_writes {dst : Value} (h : i.destination? = some dst) :
    Ready kept (i.writes ++ written) [dst] := by
  intro v hv x hx _
  obtain rfl : v = dst := by simpa using hv
  cases v with
  | constant c => cases hx
  | var y =>
      obtain rfl : x = y := by simpa [Value.names] using hx
      exact List.mem_append_left _ (Instr.mem_writes.2 h)

namespace Safe

/-- With more written, a safe place stays safe. -/
theorem mono (h : written ⊆ written') (hs : Safe code kept n pc written) :
    Safe code kept n pc written' := by
  induction n generalizing pc written written' with
  | zero => trivial
  | succ n ih =>
      intro i hi
      obtain ⟨hr, hgo⟩ := hs i hi
      refine ⟨fun x hx hk => h (hr x hx hk), fun pc' hpc' => ih ?_ (hgo pc' hpc')⟩
      exact List.append_subset.2 ⟨List.subset_append_left _ _,
        List.subset_append_of_subset_right _ h⟩

theorem pred (hs : Safe code kept (n + 1) pc written) : Safe code kept n pc written := by
  induction n generalizing pc written with
  | zero => trivial
  | succ n ih =>
      intro i hi
      obtain ⟨hr, hgo⟩ := hs i hi
      exact ⟨hr, fun pc' hpc' => ih (hgo pc' hpc')⟩

theorem le (h : m ≤ n) (hs : Safe code kept n pc written) : Safe code kept m pc written := by
  induction h with
  | refl => exact hs
  | step _ ih => exact ih hs.pred

/-- An instruction that reads what was written is safe if the places behind it are. A jump is a step
of its own, so the place that it goes to needs to be safe for fewer steps only. -/
theorem instr (h : CodeAt code pc (i :: rest)) (hr : ∀ x ∈ i.reads, kept x → x ∈ written)
    (hnext : i.fallsThrough = true → Safe code kept n (pc + 1) (i.writes ++ written))
    (hjump : ∀ l, i.target? = some l → ∀ pc', position? code l = some pc' → ∀ m < n,
      Safe code kept m pc' (i.writes ++ written)) : Safe code kept n pc written := by
  cases n with
  | zero => trivial
  | succ n =>
      intro i' hi'
      obtain rfl : i = i' := Option.some.inj (h.getElem?.symm.trans hi')
      refine ⟨hr, fun pc' hgo => ?_⟩
      cases hgo with
      | next hi hf =>
          obtain rfl := Option.some.inj (hi'.symm.trans hi)
          exact (hnext hf).pred
      | jump hi ht hl =>
          obtain rfl := Option.some.inj (hi'.symm.trans hi)
          exact hjump _ ht _ hl n (Nat.lt_succ_self n)

/-- The places that are passed on a path have written what the rest of the path may read. -/
theorem of_reaches (h : ∀ n, Safe code kept n 0 []) {passed : List Nat}
    (hr : Reaches code passed pc) : ∀ n, Safe code kept n pc
      (passed.flatMap fun pc => code[pc]?.toList.flatMap Instr.writes) := by
  induction hr with
  | entry => exact h
  | @go passed pc pc' _ hgo ih =>
      intro n
      obtain ⟨i, hi⟩ : ∃ i, code[pc]? = some i := by
        cases hgo with
        | next hi _ => exact ⟨_, hi⟩
        | jump hi _ _ => exact ⟨_, hi⟩
      have hsafe := ((ih (n + 1)) i hi).2 pc' hgo
      simpa [List.flatMap_cons, hi] using hsafe

end Safe

theorem writtenFirst_of_safe (h : ∀ n, Safe code kept n 0 []) {x : String} (hx : kept x) :
    WrittenFirst code x := by
  intro passed pc i hr hi hread
  have hmem := (Safe.of_reaches h hr 1 i hi).1 x hread hx
  obtain ⟨pc', hpc', hmem⟩ := List.mem_flatMap.1 hmem
  obtain ⟨i', hi', hw⟩ := List.mem_flatMap.1 hmem
  exact ⟨pc', hpc', i', by simpa using hi', hw⟩

/-! ## Pieces of code -/

/-- Wherever the piece stands, and whatever was written before, the paths through it are safe if
those from its end are, where the values are ready. -/
def Readies (code : List Instr) (kept : String → Prop) (part : List Instr) (vs : List Value) :
    Prop :=
  ∀ n pc written, CodeAt code pc part →
    (∀ written', written ⊆ written' → Ready kept written' vs →
      Safe code kept n (pc + part.length) written') →
    Safe code kept n pc written

/-- The places to which the loop around a piece of code may be left are safe for fewer than `n`
steps. -/
def ExitsSafe (code : List Instr) (kept : String → Prop) (loop : Option String) (n : Nat)
    (written : List String) : Prop :=
  ∀ name ∈ loop, ∀ l ∈ [breakLabel name, continueLabel name], ∀ pc', position? code l = some pc' →
    ∀ m < n, Safe code kept m pc' written

/-- Wherever the piece stands in the loop, and whatever was written before, the paths through it are
safe if those from its end and those out of the loop are. -/
def Passes (code : List Instr) (kept : String → Prop) (loop : Option String) (part : List Instr) :
    Prop :=
  ∀ n pc written, CodeAt code pc part → ExitsSafe code kept loop n written →
    Safe code kept n (pc + part.length) written → Safe code kept n pc written

variable {loop : Option String} {part part' : List Instr} {dst : Value}

namespace Readies

theorem nil (hv : Ready kept [] vs) : Readies code kept [] vs :=
  fun _ _ written _ hend => hend written (List.Subset.refl _) (hv.mono (List.nil_subset _))

/-- Two stretches that ready their values ready all of them together. -/
theorem append (h : Readies code kept part vs) (h' : Readies code kept part' vs') :
    Readies code kept (part ++ part') (vs ++ vs') := by
  intro n pc written hat hend
  refine h n pc written hat.left fun w hw hv => h' n _ w hat.right fun w' hw' hv' => ?_
  rw [List.length_append, ← Nat.add_assoc] at hend
  refine hend w' (List.Subset.trans hw hw') fun v hmem => ?_
  rcases List.mem_append.1 hmem with hmem | hmem
  · exact hv.mono hw' v hmem
  · exact hv' v hmem

theorem passes (h : Readies code kept part vs) : Passes code kept loop part :=
  fun n pc written hat _ hend => h n pc written hat fun _ hw _ => hend.mono hw

/-- An instruction behind the piece that reads only what the piece readies. -/
theorem instr (h : Readies code kept part vs) (hat : CodeAt code pc (part ++ i :: rest))
    (hi : i.sources ⊆ vs)
    (hnext : i.fallsThrough = true → ∀ written', written ⊆ written' →
      Safe code kept n (pc + part.length + 1) (i.writes ++ written'))
    (hjump : ∀ l, i.target? = some l → ∀ pc', position? code l = some pc' → ∀ m < n,
      Safe code kept m pc' written) : Safe code kept n pc written := by
  refine h n pc written hat.left fun w hw hv => .instr hat.right (hv.reads hi) ?_ ?_
  · exact fun hf => hnext hf w hw
  · intro l hl pc' hpc' m hm
    exact (hjump l hl pc' hpc' m hm).mono (List.subset_append_of_subset_right _ hw)

/-- An instruction with a destination, which is then ready. -/
theorem write (h : Readies code kept part vs) (hi : i.sources ⊆ vs)
    (hdst : i.destination? = some dst) : Readies code kept (part ++ [i]) [dst] := by
  have htarget := Instr.target?_of_destination? hdst
  intro n pc written hat hend
  rw [List.length_append, List.length_singleton, ← Nat.add_assoc] at hend
  refine h.instr hat hi (fun _ w hw => hend _ ?_ (ready_writes hdst)) fun l hl => ?_
  · exact List.subset_append_of_subset_right _ hw
  · rw [htarget] at hl
    cases hl

/-- An instruction without a destination that may leave the piece for a place out of the loop. -/
theorem leave (h : Readies code kept part vs) (hi : i.sources ⊆ vs) (hdst : i.destination? = none)
    (htarget : ∀ l ∈ i.target?, ∃ name ∈ loop, l ∈ [breakLabel name, continueLabel name]) :
    Passes code kept loop (part ++ [i]) := by
  have hwrites : i.writes = [] := by rw [Instr.writes, hdst]; rfl
  intro n pc written hat hexits hend
  rw [List.length_append, List.length_singleton, ← Nat.add_assoc] at hend
  refine h.instr hat hi (fun _ w hw => ?_) fun l hl pc' hpc' => ?_
  · rw [hwrites]
    exact hend.mono hw
  · obtain ⟨name, hname, hmem⟩ := htarget l hl
    exact hexits name hname l hmem pc' hpc'

end Readies

namespace Passes

theorem nil : Passes code kept loop [] := fun _ _ _ _ _ hend => hend

theorem append (h : Passes code kept loop part) (h' : Passes code kept loop part') :
    Passes code kept loop (part ++ part') := by
  intro n pc written hat hexits hend
  refine h n pc written hat.left hexits (h' n _ written hat.right hexits ?_)
  rwa [List.length_append, ← Nat.add_assoc] at hend

end Passes

/-! ## Connectives and conditionals -/

/-- A label is passed as if it were not there. -/
theorem Safe.label {l : String} (h : CodeAt code pc (.label l :: rest))
    (hend : Safe code kept n (pc + 1) written) : Safe code kept n pc written :=
  .instr h (by simp [Instr.reads, Instr.sources]) (fun _ => hend) fun _ hl => by cases hl

/-- A jump to a label that is set once. -/
theorem Safe.jump {l : String} {rest' : List Instr} (hn : (labelsOf code).Nodup)
    (h : CodeAt code pc (.jump l :: rest)) (h' : CodeAt code pc' (.label l :: rest'))
    (hend : ∀ m < n, Safe code kept m pc' written) : Safe code kept n pc written := by
  refine .instr h (by simp [Instr.reads, Instr.sources]) (fun hf => by cases hf) ?_
  intro l' hl pc'' hpc'' m hm
  obtain rfl : l = l' := Option.some.inj hl
  obtain rfl : pc' = pc'' := Option.some.inj ((h'.position? hn).symm.trans hpc'')
  exact hend m hm

/-- A copy of a value that is ready. -/
theorem Safe.copy {src : Value} (h : CodeAt code pc (.copy src dst :: rest))
    (hsrc : Ready kept written [src])
    (hend : ∀ written', written ⊆ written' → Ready kept written' [dst] →
      Safe code kept n (pc + 1) written') : Safe code kept n pc written := by
  refine .instr h (hsrc.reads (List.Subset.refl _)) (fun _ => hend _ ?_ (ready_writes rfl)) ?_
  · exact List.subset_append_right _ _
  · exact fun _ hl => by cases hl

theorem ready_constant {c : Constant} : Ready kept written [.constant c] := by
  simp [Ready, Value.names]

/-- Both ways through a connective write the value: by falling through and by the jump to the short
cut. -/
theorem readies_connective (hn : (labelsOf code).Nodup) {op : LogicOp} {left right : ExprCode}
    {short finish : String} (hl : Readies code kept left.code [left.value])
    (hr : Readies code kept right.code [right.value]) :
    Readies code kept (connectiveCode op left right dst short finish) [dst] := by
  intro n pc written hat hend
  rw [connectiveCode_eq] at hat
  have hlen : (connectiveCode op left right dst short finish).length =
      left.code.length + 1 + right.code.length + 1 + 5 := by
    rw [connectiveCode_eq]
    simp
    omega
  rw [hlen] at hend
  have hright : CodeAt code (pc + left.code.length + 1)
      (right.code ++ [connectiveTest op right.value short]) := by
    have hfront := hat.left
    rw [List.append_assoc] at hfront
    exact hfront.behind (by simp; omega)
  have hlast : CodeAt code (pc + left.code.length + 1 + right.code.length + 1)
      [.copy (intValue (1 - op.decided)) dst, .jump finish, .label short,
        .copy (intValue op.decided) dst, .label finish] := hat.behind (by simp; omega)
  -- from the end to the front: behind the answer, at the two answers, at the two tests
  have hfinish : ∀ w, written ⊆ w → Ready kept w [dst] →
      Safe code kept n (pc + left.code.length + 1 + right.code.length + 1 + 4) w :=
    fun w hw hd => .label hlast.tail.tail.tail.tail (by
      have := hend w hw hd
      rwa [show pc + (left.code.length + 1 + right.code.length + 1 + 5) =
        pc + left.code.length + 1 + right.code.length + 1 + 4 + 1 by omega] at this)
  have hshort : Safe code kept n (pc + left.code.length + 1 + right.code.length + 1 + 2) written :=
    .label hlast.tail.tail (.copy hlast.tail.tail.tail ready_constant hfinish)
  have hopen : Safe code kept n (pc + left.code.length + 1 + right.code.length + 1) written :=
    .copy hlast ready_constant fun w hw hd =>
      .jump hn hlast.tail hlast.tail.tail.tail.tail fun m hm => (hfinish w hw hd).le (by omega)
  have htest : ∀ v : Value, (connectiveTest op v short).sources = [v] ∧
      (connectiveTest op v short).destination? = none ∧
      (connectiveTest op v short).target? = some short := by
    intro v
    cases op <;> exact ⟨rfl, rfl, rfl⟩
  have hjump : ∀ v l, (connectiveTest op v short).target? = some l →
      ∀ pc', position? code l = some pc' → ∀ m < n, Safe code kept m pc' written := by
    intro v l hl pc' hpc' m hm
    obtain rfl : short = l := Option.some.inj ((htest v).2.2.symm.trans hl)
    obtain rfl := Option.some.inj ((hlast.tail.tail.position? hn).symm.trans hpc')
    exact hshort.le (by omega)
  have hwrites : ∀ v, (connectiveTest op v short).writes = [] := by
    intro v
    rw [Instr.writes, (htest v).2.1]
    rfl
  have hsecond : Safe code kept n (pc + left.code.length + 1) written := by
    refine hr.instr hright (by rw [(htest _).1]; exact List.Subset.refl _) ?_ (hjump right.value)
    exact fun _ w hw => by rw [hwrites]; exact hopen.mono hw
  have hleft : CodeAt code pc (left.code ++ [connectiveTest op left.value short]) :=
    hat.left.left.left
  refine hl.instr hleft (by rw [(htest _).1]; exact List.Subset.refl _) ?_ (hjump left.value)
  exact fun _ w hw => by rw [hwrites]; exact hsecond.mono hw

/-- Each branch copies its value to the destination, so it is written whichever way control goes. -/
theorem readies_conditional (hn : (labelsOf code).Nodup) {condition yes no : ExprCode}
    {other finish : String} (hc : Readies code kept condition.code [condition.value])
    (hyes : Readies code kept yes.code [yes.value]) (hno : Readies code kept no.code [no.value]) :
    Readies code kept (conditionalCode condition yes no dst other finish) [dst] := by
  intro n pc written hat hend
  have hlen : (conditionalCode condition yes no dst other finish).length =
      condition.code.length + 1 + yes.code.length + 3 + no.code.length + 2 := by
    simp [conditionalCode]
    omega
  rw [hlen] at hend
  rw [conditionalCode] at hat
  have htest : CodeAt code pc (condition.code ++ [.jumpIfZero condition.value other]) :=
    hat.left.left.left.left
  have hyesAt : CodeAt code (pc + condition.code.length + 1) yes.code :=
    hat.left.left.left.behind (by simp; omega)
  have hmiddle : CodeAt code (pc + condition.code.length + 1 + yes.code.length)
      [.copy yes.value dst, .jump finish, .label other] := hat.left.left.behind (by simp; omega)
  have hnoAt : CodeAt code (pc + condition.code.length + 1 + yes.code.length + 3) no.code :=
    hat.left.behind (by simp; omega)
  have hlast : CodeAt code
      (pc + condition.code.length + 1 + yes.code.length + 3 + no.code.length)
      [.copy no.value dst, .label finish] := hat.behind (by simp; omega)
  -- from the end to the front: behind the value, at the second branch, at the first one
  have hfinish : ∀ w, written ⊆ w → Ready kept w [dst] → Safe code kept n
      (pc + condition.code.length + 1 + yes.code.length + 3 + no.code.length + 1) w :=
    fun w hw hd => .label hlast.tail (by
      have := hend w hw hd
      rwa [show pc + (condition.code.length + 1 + yes.code.length + 3 + no.code.length + 2) =
        pc + condition.code.length + 1 + yes.code.length + 3 + no.code.length + 1 + 1 by omega]
        at this)
  have hother : Safe code kept n (pc + condition.code.length + 1 + yes.code.length + 2) written :=
    .label hmiddle.tail.tail <| hno n _ written hnoAt fun w hw hv =>
      .copy hlast hv fun w' hw' hd => hfinish w' (List.Subset.trans hw hw') hd
  have htaken : Safe code kept n (pc + condition.code.length + 1) written :=
    hyes n _ written hyesAt fun w hw hv => .copy hmiddle hv fun w' hw' hd =>
      .jump hn hmiddle.tail hlast.tail fun m hm =>
        (hfinish w' (List.Subset.trans hw hw') hd).le (by omega)
  refine hc.instr htest (List.Subset.refl _) (fun _ w hw => htaken.mono hw) ?_
  intro l hl pc' hpc' m hm
  obtain rfl : other = l := Option.some.inj hl
  obtain rfl := Option.some.inj ((hmiddle.tail.tail.position? hn).symm.trans hpc')
  exact hother.le (by omega)

/-! ## Branches and loops -/

section

variable {test yes no body post first : List Instr} {v : Value} {finish other name : String}

/-- A label that is set once is the one that a jump goes to. -/
theorem CodeAt.eq_position (hn : (labelsOf code).Nodup) {l : String}
    (h : CodeAt code pc (.label l :: rest)) (hl : ThreeAddress.position? code l = some pc') :
    pc' = pc :=
  Option.some.inj (hl.symm.trans (h.position? hn))

theorem passes_ifThen (hn : (labelsOf code).Nodup) (hc : Readies code kept test [v])
    (hy : Passes code kept loop yes) :
    Passes code kept loop (test ++ [.jumpIfZero v finish] ++ yes ++ [.label finish]) := by
  intro n pc written hat hexits hend
  have hlen : pc + (test ++ [.jumpIfZero v finish] ++ yes ++ [.label finish] : List Instr).length =
      pc + test.length + 1 + yes.length + 1 := by
    simp
    omega
  rw [hlen] at hend
  have hyesAt : CodeAt code (pc + test.length + 1) yes := hat.left.behind (by simp; omega)
  have hlast : CodeAt code (pc + test.length + 1 + yes.length) [.label finish] :=
    hat.behind (by simp; omega)
  have hfinish : Safe code kept n (pc + test.length + 1 + yes.length) written := .label hlast hend
  have htaken := hy n _ written hyesAt hexits hfinish
  refine hc.instr hat.left.left (List.Subset.refl _) (fun _ w hw => htaken.mono hw) ?_
  intro l hl pc' hpc' m hm
  obtain rfl : finish = l := Option.some.inj hl
  rw [hlast.eq_position hn hpc']
  exact hfinish.le (by omega)

/-- Control ends behind the code from either branch. -/
theorem passes_ifElse (hn : (labelsOf code).Nodup) (hc : Readies code kept test [v])
    (hy : Passes code kept loop yes) (hno : Passes code kept loop no) :
    Passes code kept loop (test ++ [.jumpIfZero v other] ++ yes ++ [.jump finish, .label other] ++
      no ++ [.label finish]) := by
  intro n pc written hat hexits hend
  have hlen : pc + (test ++ [.jumpIfZero v other] ++ yes ++ [.jump finish, .label other] ++ no ++
      [.label finish] : List Instr).length =
        pc + test.length + 1 + yes.length + 2 + no.length + 1 := by
    simp
    omega
  rw [hlen] at hend
  have hyesAt : CodeAt code (pc + test.length + 1) yes := hat.left.left.left.behind (by simp; omega)
  have hmiddle : CodeAt code (pc + test.length + 1 + yes.length) [.jump finish, .label other] :=
    hat.left.left.behind (by simp; omega)
  have hnoAt : CodeAt code (pc + test.length + 1 + yes.length + 2) no :=
    hat.left.behind (by simp; omega)
  have hlast : CodeAt code (pc + test.length + 1 + yes.length + 2 + no.length) [.label finish] :=
    hat.behind (by simp; omega)
  have hfinish : Safe code kept n (pc + test.length + 1 + yes.length + 2 + no.length) written :=
    .label hlast hend
  have hother : Safe code kept n (pc + test.length + 1 + yes.length + 1) written :=
    .label hmiddle.tail (hno n _ written hnoAt hexits hfinish)
  have htaken : Safe code kept n (pc + test.length + 1) written :=
    hy n _ written hyesAt hexits (.jump hn hmiddle hlast fun m hm => hfinish.le (by omega))
  refine hc.instr hat.left.left.left.left (List.Subset.refl _) (fun _ w hw => htaken.mono hw) ?_
  intro l hl pc' hpc' m hm
  obtain rfl : other = l := Option.some.inj hl
  rw [hmiddle.tail.eq_position hn hpc']
  exact hother.le (by omega)

/-- The two places to which the body of a loop may be left. -/
theorem exitsSafe_of_labels (hn : (labelsOf code).Nodup) {pc₁ pc₂ : Nat} {rest₁ rest₂ : List Instr}
    (hb : CodeAt code pc₁ (.label (breakLabel name) :: rest₁))
    (hc : CodeAt code pc₂ (.label (continueLabel name) :: rest₂))
    (hbs : ∀ m < n, Safe code kept m pc₁ written) (hcs : ∀ m < n, Safe code kept m pc₂ written) :
    ExitsSafe code kept (some name) n written := by
  intro name' hname l hl pc' hpc' m hm
  obtain rfl : name = name' := by simpa using hname
  rcases List.mem_cons.1 hl with rfl | hl
  · rw [hb.eq_position hn hpc']
    exact hbs m hm
  · obtain rfl := List.mem_singleton.1 hl
    rw [hc.eq_position hn hpc']
    exact hcs m hm

/-- A path of `n` steps from the head is safe by induction on `n`: a round takes at least one
step. -/
theorem passes_whileLoop (hn : (labelsOf code).Nodup) (hc : Readies code kept test [v])
    (hb : Passes code kept (some name) body) :
    Passes code kept loop ([.label (continueLabel name)] ++ test ++
      [.jumpIfZero v (breakLabel name)] ++ body ++
        [.jump (continueLabel name), .label (breakLabel name)]) := by
  rintro n pc written hat - hend
  have hlen : pc + ([.label (continueLabel name)] ++ test ++ [.jumpIfZero v (breakLabel name)] ++
      body ++ [.jump (continueLabel name), .label (breakLabel name)] : List Instr).length =
      pc + 1 + test.length + 1 + body.length + 2 := by
    simp
    omega
  rw [hlen] at hend
  have hhead : CodeAt code pc [.label (continueLabel name)] := hat.left.left.left.left
  have htestAt : CodeAt code (pc + 1) (test ++ [.jumpIfZero v (breakLabel name)]) := by
    have hfront := hat.left.left
    rw [List.append_assoc] at hfront
    exact hfront.right
  have hbodyAt : CodeAt code (pc + 1 + test.length + 1) body := hat.left.behind (by simp; omega)
  have hlast : CodeAt code (pc + 1 + test.length + 1 + body.length)
      [.jump (continueLabel name), .label (breakLabel name)] := hat.behind (by simp; omega)
  -- the way back to the head takes a step, so the induction is on the number of steps
  induction n using Nat.strongRecOn generalizing written with
  | ind n ih =>
      have hbreak : Safe code kept n (pc + 1 + test.length + 1 + body.length + 1) written :=
        .label hlast.tail hend
      have hagain : ∀ m < n, Safe code kept m pc written :=
        fun m hm => ih m hm written (hend.le (by omega))
      have hexits : ExitsSafe code kept (some name) n written :=
        exitsSafe_of_labels hn hlast.tail hhead (fun m hm => hbreak.le (by omega)) hagain
      have hround : Safe code kept n (pc + 1 + test.length + 1) written :=
        hb n _ written hbodyAt hexits (.jump hn hlast hhead hagain)
      refine .label hhead ?_
      refine hc.instr htestAt (List.Subset.refl _) (fun _ w hw => hround.mono hw) ?_
      intro l hl pc' hpc' m hm
      obtain rfl : breakLabel name = l := Option.some.inj hl
      rw [hlast.tail.eq_position hn hpc']
      exact hbreak.le (by omega)

/-- The way back to the head is the jump of the test, so the induction is on the number of steps
again. -/
theorem passes_doLoop (hn : (labelsOf code).Nodup) (hc : Readies code kept test [v])
    (hb : Passes code kept (some name) body) :
    Passes code kept loop ([.label (startLabel name)] ++ body ++ [.label (continueLabel name)] ++
      test ++ [.jumpIfNotZero v (startLabel name), .label (breakLabel name)]) := by
  rintro n pc written hat - hend
  have hlen : pc + ([.label (startLabel name)] ++ body ++ [.label (continueLabel name)] ++
      test ++ [.jumpIfNotZero v (startLabel name), .label (breakLabel name)] : List Instr).length =
      pc + 1 + body.length + 1 + test.length + 2 := by
    simp
    omega
  rw [hlen] at hend
  have hhead : CodeAt code pc [.label (startLabel name)] := hat.left.left.left.left
  have hbodyAt : CodeAt code (pc + 1) body := hat.left.left.left.right
  have hmiddle : CodeAt code (pc + 1 + body.length) [.label (continueLabel name)] :=
    hat.left.left.behind (by simp; omega)
  have htestAt : CodeAt code (pc + 1 + body.length + 1)
      (test ++ [.jumpIfNotZero v (startLabel name), .label (breakLabel name)]) := by
    rw [List.append_assoc] at hat
    exact hat.behind (by simp; omega)
  have hlast : CodeAt code (pc + 1 + body.length + 1 + test.length + 1)
      [.label (breakLabel name)] := htestAt.right.tail
  -- the jump back to the head takes a step, so the induction is on the number of steps
  induction n using Nat.strongRecOn generalizing written with
  | ind n ih =>
      have hbreak : Safe code kept n (pc + 1 + body.length + 1 + test.length + 1) written :=
        .label hlast hend
      have hagain : ∀ m < n, Safe code kept m pc written :=
        fun m hm => ih m hm written (hend.le (by omega))
      have hcontinue : Safe code kept n (pc + 1 + body.length) written := by
        refine .label hmiddle ?_
        refine hc.instr htestAt (List.Subset.refl _) (fun _ w hw => hbreak.mono hw) ?_
        intro l hl pc' hpc'
        obtain rfl : startLabel name = l := Option.some.inj hl
        rw [hhead.eq_position hn hpc']
        exact hagain
      have hexits : ExitsSafe code kept (some name) n written :=
        exitsSafe_of_labels hn hlast hmiddle (fun m hm => hbreak.le (by omega))
          fun m hm => hcontinue.le (by omega)
      exact .label hhead (hb n _ written hbodyAt hexits hcontinue)

/-- The same with a step, behind which control is at the head again with fewer steps to go. -/
theorem passes_forLoop (hn : (labelsOf code).Nodup) (hi : Passes code kept loop first)
    (ht : Passes code kept (some name) test) (hb : Passes code kept (some name) body)
    (hp : Passes code kept none post) :
    Passes code kept loop (first ++ [.label (startLabel name)] ++ test ++ body ++
      [.label (continueLabel name)] ++ post ++
        [.jump (startLabel name), .label (breakLabel name)]) := by
  intro n pc written hat hexits hend
  have hlen : pc + (first ++ [.label (startLabel name)] ++ test ++ body ++
      [.label (continueLabel name)] ++ post ++
        [.jump (startLabel name), .label (breakLabel name)] : List Instr).length =
      pc + first.length + 1 + test.length + body.length + 1 + post.length + 2 := by
    simp
    omega
  rw [hlen] at hend
  refine hi n pc written hat.left.left.left.left.left.left hexits ?_
  have hhead : CodeAt code (pc + first.length) [.label (startLabel name)] :=
    hat.left.left.left.left.left.right
  have htestAt : CodeAt code (pc + first.length + 1) test :=
    hat.left.left.left.left.behind (by simp; omega)
  have hbodyAt : CodeAt code (pc + first.length + 1 + test.length) body :=
    hat.left.left.left.behind (by simp; omega)
  have hmiddle : CodeAt code (pc + first.length + 1 + test.length + body.length)
      [.label (continueLabel name)] := hat.left.left.behind (by simp; omega)
  have hpostAt : CodeAt code (pc + first.length + 1 + test.length + body.length + 1) post :=
    hat.left.behind (by simp; omega)
  have hlast : CodeAt code (pc + first.length + 1 + test.length + body.length + 1 + post.length)
      [.jump (startLabel name), .label (breakLabel name)] := hat.behind (by simp; omega)
  -- the exits of the loop around are used by the header only
  clear hexits
  induction n using Nat.strongRecOn generalizing written with
  | ind n ih =>
      have hbreak : Safe code kept n
          (pc + first.length + 1 + test.length + body.length + 1 + post.length + 1) written :=
        .label hlast.tail hend
      have hagain : ∀ m < n, Safe code kept m (pc + first.length) written :=
        fun m hm => ih m hm written (hend.le (by omega))
      have hcontinue : Safe code kept n (pc + first.length + 1 + test.length + body.length)
          written :=
        .label hmiddle (hp n _ written hpostAt (fun _ hname => by cases hname)
          (.jump hn hlast hhead hagain))
      have hexits : ExitsSafe code kept (some name) n written :=
        exitsSafe_of_labels hn hlast.tail hmiddle (fun m hm => hbreak.le (by omega))
          fun m hm => hcontinue.le (by omega)
      exact .label hhead (ht n _ written htestAt hexits (hb n _ written hbodyAt hexits hcontinue))

end

/-! ## Jumps -/

/-- Every jump in the piece of code goes to a label in it, or out of the loop around it. -/
def Enclosed (loop : Option String) (part : List Instr) : Prop :=
  ∀ i ∈ part, ∀ l ∈ i.target?, l ∈ labelsOf part ∨
    ∃ name ∈ loop, l ∈ [breakLabel name, continueLabel name]

namespace Enclosed

variable {test yes no body post first : List Instr} {v : Value} {finish other name : String}

theorem nil : Enclosed loop [] := by simp [Enclosed]

theorem append (h : Enclosed loop part) (h' : Enclosed loop part') :
    Enclosed loop (part ++ part') := by
  intro i hi l hl
  rw [labelsOf_append, List.mem_append]
  rcases List.mem_append.1 hi with hi | hi
  · exact (h i hi l hl).imp_left .inl
  · exact (h' i hi l hl).imp_left .inr

/-- Code without jumps out of a loop may stand in a loop. -/
theorem of_none (h : Enclosed none part) : Enclosed loop part :=
  fun i hi l hl => .inl ((h i hi l hl).resolve_right (by simp))

theorem single (h : ∀ l ∈ i.target?, ∃ name ∈ loop, l ∈ [breakLabel name, continueLabel name]) :
    Enclosed loop [i] := by
  intro j hj l hl
  obtain rfl := List.mem_singleton.1 hj
  exact .inr (h l hl)

/-- The piece with an instruction behind it that writes to a variable. -/
theorem write (h : Enclosed loop part) (hdst : i.destination? = some dst) :
    Enclosed loop (part ++ [i]) := by
  refine h.append (.single fun l hl => ?_)
  rw [Instr.target?_of_destination? hdst] at hl
  cases hl

/-- The jumps of a connective go to its own two labels. -/
theorem connective {op : LogicOp} {left right : ExprCode} {short : String}
    (hl : Enclosed none left.code) (hr : Enclosed none right.code) :
    Enclosed none (connectiveCode op left right dst short finish) := by
  intro i hi l hl'
  have hl := hl i
  have hr := hr i
  have htest : ∀ v, (connectiveTest op v short).target? = some short ∧
      (connectiveTest op v short).label? = none := by
    intro v
    cases op <;> exact ⟨rfl, rfl⟩
  simp only [connectiveCode_eq, labelsOf_append, labelsOf_cons, labelsOf_nil, List.mem_append,
    List.mem_cons] at hi ⊢
  grind [Instr.target?, Instr.label?]

/-- The jumps of a conditional stay inside its code. -/
theorem conditional {condition yes no : ExprCode} (hc : Enclosed none condition.code)
    (hy : Enclosed none yes.code) (hn : Enclosed none no.code) :
    Enclosed none (conditionalCode condition yes no dst other finish) := by
  intro i hi l hl
  have hc := hc i
  have hy := hy i
  have hn := hn i
  simp only [conditionalCode, labelsOf_append, labelsOf_cons, labelsOf_nil, List.mem_append,
    List.mem_cons] at hi ⊢
  grind [Instr.target?, Instr.label?]

theorem ifThen (hc : Enclosed none test) (hy : Enclosed loop yes) :
    Enclosed loop (test ++ [.jumpIfZero v finish] ++ yes ++ [.label finish]) := by
  intro i hi l hl
  have hc := hc i
  have hy := hy i
  simp only [labelsOf_append, labelsOf_cons, labelsOf_nil, List.mem_append, List.mem_cons] at hi ⊢
  grind [Instr.target?, Instr.label?]

theorem ifElse (hc : Enclosed none test) (hy : Enclosed loop yes) (hn : Enclosed loop no) :
    Enclosed loop (test ++ [.jumpIfZero v other] ++ yes ++ [.jump finish, .label other] ++ no ++
      [.label finish]) := by
  intro i hi l hl
  have hc := hc i
  have hy := hy i
  have hn := hn i
  simp only [labelsOf_append, labelsOf_cons, labelsOf_nil, List.mem_append, List.mem_cons] at hi ⊢
  grind [Instr.target?, Instr.label?]

/-- The jumps out of the body of a loop go to labels of the loop. -/
theorem whileLoop (hc : Enclosed none test) (hb : Enclosed (some name) body) :
    Enclosed loop ([.label (continueLabel name)] ++ test ++ [.jumpIfZero v (breakLabel name)] ++
      body ++ [.jump (continueLabel name), .label (breakLabel name)]) := by
  intro i hi l hl
  have hc := hc i
  have hb := hb i
  simp only [labelsOf_append, labelsOf_cons, labelsOf_nil, List.mem_append, List.mem_cons] at hi ⊢
  grind [Instr.target?, Instr.label?]

/-- A `do` loop encloses the jumps of its body, whose loop it is. -/
theorem doLoop (hc : Enclosed none test) (hb : Enclosed (some name) body) :
    Enclosed loop ([.label (startLabel name)] ++ body ++ [.label (continueLabel name)] ++ test ++
      [.jumpIfNotZero v (startLabel name), .label (breakLabel name)]) := by
  intro i hi l hl
  have hc := hc i
  have hb := hb i
  simp only [labelsOf_append, labelsOf_cons, labelsOf_nil, List.mem_append, List.mem_cons] at hi ⊢
  grind [Instr.target?, Instr.label?]

/-- A loop keeps its own jumps: those out of the body end at its two labels. -/
theorem forLoop (hi : Enclosed loop first) (ht : Enclosed (some name) test)
    (hb : Enclosed (some name) body) (hp : Enclosed none post) :
    Enclosed loop (first ++ [.label (startLabel name)] ++ test ++ body ++
      [.label (continueLabel name)] ++ post ++
        [.jump (startLabel name), .label (breakLabel name)]) := by
  intro i hmem l hl
  have hi := hi i
  have ht := ht i
  have hb := hb i
  have hp := hp i
  simp only [labelsOf_append, labelsOf_cons, labelsOf_nil, List.mem_append, List.mem_cons]
    at hmem ⊢
  grind [Instr.target?, Instr.label?]

end Enclosed

end IntegerC.ThreeAddress
