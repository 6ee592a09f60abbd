import IntegerC.Proofs.Machine.Passes

set_option autoImplicit false

/-! # Depths of the stack

How far down the stack is at the labels, jumps, calls and returns of a function. Choosing instructions
leaves the stack where it was, but for the arguments of a call in front of that call, the frame is
allocated in front of everything, and mending moves the stack as far as the instruction did. So the
depths can be read off three-address code.
-/

namespace IntegerC.Machine

open ThreeAddress (Value)

/-! ## Moves of the stack -/

/-- How many bytes an instruction moves the stack down. -/
def Instr.descent : Instr → Int
  | .allocateStack n => n
  | .deallocateStack n => -n
  | .push _ => 8
  | _ => 0

/-- How many bytes a piece of code moves the stack down from its beginning to its end. -/
def descent : List Instr → Int
  | [] => 0
  | i :: code => i.descent + descent code

@[simp] theorem descent_nil : descent [] = 0 := rfl

@[simp] theorem descent_cons (i : Instr) (code : List Instr) :
    descent (i :: code) = i.descent + descent code :=
  rfl

@[simp] theorem descent_append (code code' : List Instr) :
    descent (code ++ code') = descent code + descent code' := by
  induction code with
  | nil => exact (Int.zero_add _).symm
  | cons i code ih => rw [List.cons_append, descent_cons, descent_cons, ih, Int.add_assoc]

/-! ## Sites -/

/-- Whether an instruction is a label, a jump, a call or a return. -/
def Instr.isSite : Instr → Bool
  | .label _ | .jmp _ | .jmpCC _ _ | .call _ | .ret => true
  | _ => false

/-- The labels, jumps, calls and returns of a piece of code, each with the depth of the stack in front
of it, if that is `d` at the beginning. -/
def sites (d : Int) : List Instr → List (Instr × Int)
  | [] => []
  | i :: code => (if i.isSite then [(i, d)] else []) ++ sites (d + i.descent) code

@[simp] theorem sites_nil (d : Int) : sites d [] = [] := rfl

@[simp] theorem sites_append (d : Int) (code code' : List Instr) :
    sites d (code ++ code') = sites d code ++ sites (d + descent code) code' := by
  induction code generalizing d with
  | nil => simp
  | cons i code ih =>
      rw [List.cons_append, sites, sites, ih, descent_cons, List.append_assoc, Int.add_assoc]

theorem sites_singleton (d : Int) (i : Instr) :
    sites d [i] = if i.isSite then [(i, d)] else [] := by
  simp [sites]

/-- Whether an instruction is no site and leaves the stack where it is. -/
def Instr.isPlain (i : Instr) : Bool := !i.isSite && i.descent = 0

theorem Instr.isPlain_iff {i : Instr} : i.isPlain = true ↔ i.isSite = false ∧ i.descent = 0 := by
  simp [isPlain]

theorem descent_of_plain {code : List Instr} (h : ∀ i ∈ code, i.isPlain = true) :
    descent code = 0 := by
  induction code with
  | nil => rfl
  | cons i code ih =>
      obtain ⟨hi, hcode⟩ := List.forall_mem_cons.1 h
      rw [descent_cons, (i.isPlain_iff.1 hi).2, ih hcode, Int.add_zero]

theorem sites_of_plain {code : List Instr} (h : ∀ i ∈ code, i.isPlain = true) (d : Int) :
    sites d code = [] := by
  induction code generalizing d with
  | nil => rfl
  | cons i code ih =>
      obtain ⟨hi, hcode⟩ := List.forall_mem_cons.1 h
      rw [sites, (i.isPlain_iff.1 hi).1, ih hcode]
      rfl

/-- In front of a site the stack is as far down as the code up to there moves it. -/
theorem exists_sites_append {code : List Instr} {k : Nat} {i : Instr} (hi : code[k]? = some i)
    (hsite : i.isSite = true) (d : Int) : ∃ rest, sites d code =
      sites d (code.take k) ++ (i, d + descent (code.take k)) :: rest := by
  obtain ⟨hk, hget⟩ := List.getElem?_eq_some_iff.1 hi
  have hsplit : code.take k ++ i :: code.drop (k + 1) = code := by
    rw [← hget, List.getElem_cons_drop, List.take_append_drop]
  have hsites := congrArg (sites d) hsplit
  rw [sites_append, sites, if_pos hsite] at hsites
  exact ⟨_, hsites.symm⟩

/-! ## Choosing instructions -/

/-- The least even number that is not below `n`. -/
def evenUp (n : Nat) : Nat := n + n % 2

/-- A label, jump, call or return as machine code has it, with the depth of the stack in front of it if
the stack is otherwise at depth `d`. In front of a call an even number of words is added for the
arguments that are not in registers. -/
def siteOf? (d : Int) : ThreeAddress.Instr → Option (Instr × Int)
  | .label l => some (.label l, d)
  | .jump l => some (.jmp l, d)
  | .jumpIfZero _ l => some (.jmpCC .e l, d)
  | .jumpIfNotZero _ l => some (.jmpCC .ne l, d)
  | .call f args _ => some (.call f, d + 8 * evenUp (args.length - argumentRegs.length))
  | .ret _ => some (.ret, d)
  | _ => none

variable {t : SymbolTable}

/-- Passing in registers moves nothing on the stack and has no site. -/
theorem registerArguments_plain (vs : List Value) :
    ∀ rs, Answers (registerArguments t vs rs) (fun out => ∀ i ∈ out, i.isPlain = true) := by
  induction vs with
  | nil => exact fun rs => .pure (by simp)
  | cons v vs ih =>
      intro rs
      cases rs with
      | nil => exact .pure (by simp)
      | cons r rs =>
          exact (Ensures.self (valueWidth t v)).bind fun _ _ => (ih rs).bind fun _ h =>
            .pure (List.forall_mem_cons.2 ⟨rfl, h⟩)

/-- Each argument that is pushed takes a word. -/
theorem pushArguments_depths (vs : List Value) :
    Answers (pushArguments t vs)
      (fun out => descent out = 8 * vs.length ∧ ∀ d, sites d out = []) := by
  have hpush : ∀ v, Answers (pushArgument t v)
      (fun out => descent out = 8 ∧ ∀ d, sites d out = []) := by
    intro v
    cases v with
    | constant c => exact .pure ⟨rfl, fun _ => rfl⟩
    | var x =>
        refine (Ensures.self (valueWidth t (.var x))).bind fun w _ => ?_
        cases w <;> exact .pure ⟨rfl, fun _ => rfl⟩
  induction vs with
  | nil => exact .pure ⟨rfl, fun _ => rfl⟩
  | cons v vs ih =>
      refine (hpush v).bind fun out ho => ih.bind fun outs hos => .pure ⟨?_, fun d => ?_⟩
      · rw [descent_append, ho.1, hos.1, List.length_cons]
        omega
      · rw [sites_append, ho.2, hos.2]
        rfl

theorem descent_allocate (bytes : Nat) : descent (allocate bytes) = bytes := by
  unfold allocate
  split
  · rename_i h
    rw [h]
    rfl
  · rfl

theorem descent_deallocate (bytes : Nat) : descent (deallocate bytes) = -(bytes : Int) := by
  unfold deallocate
  split
  · rename_i h
    rw [h]
    rfl
  · exact Int.add_zero _

@[simp] theorem sites_allocate (d : Int) (bytes : Nat) : sites d (allocate bytes) = [] := by
  unfold allocate
  split <;> rfl

@[simp] theorem sites_deallocate (d : Int) (bytes : Nat) : sites d (deallocate bytes) = [] := by
  unfold deallocate
  split <;> rfl

/-- The bytes in front of a call are given back behind it. -/
theorem callCode_depths (f : String) (args : List Value) (dst : Value) :
    Answers (callCode t f args dst) (fun out => descent out = 0 ∧
      ∀ d, sites d out = [(.call f, d + 8 * evenUp (args.length - argumentRegs.length))]) := by
  rw [callCode]
  refine (registerArguments_plain args argumentRegs).bind fun moves hm => ?_
  refine (pushArguments_depths _).bind fun pushes hp => ?_
  refine (Ensures.self (valueWidth t dst)).bind fun w _ => .pure ?_
  have hlength : ((args.drop argumentRegs.length).reverse).length =
      args.length - argumentRegs.length := by simp
  rw [hlength] at hp
  generalize hn : args.length - argumentRegs.length = n at hp
  have hlength : (args.drop argumentRegs.length).length = n := by rw [List.length_drop, hn]
  have hpadding : (paddingFor n + 8 * n : Int) = 8 * evenUp n := by
    unfold paddingFor evenUp
    split <;> omega
  simp only [hlength]
  refine ⟨?_, fun d => ?_⟩
  · simp only [descent_append, descent_cons, descent_nil, descent_of_plain hm, hp.1,
      descent_allocate, descent_deallocate, Instr.descent]
    omega
  · have hdepth : d + (paddingFor n + 0 + descent pushes) = d + 8 * evenUp n := by
      rw [hp.1]
      omega
    simp only [sites_append, sites_of_plain hm, descent_of_plain hm, hp.2, descent_append,
      descent_allocate, sites_allocate, sites_deallocate, sites, Instr.isSite, reduceIte,
      Bool.false_eq_true, List.nil_append, List.append_nil, hdepth]

theorem arithCode_plain (op : ArithOp) (w : Width) (signed : Bool) (left right dst : Operand) :
    ∀ i ∈ arithCode op w signed left right dst, i.isPlain = true := by
  cases op <;> cases signed <;>
  simp [arithCode, plainCode, divisionCode, Instr.isPlain, Instr.isSite, Instr.descent]

theorem shiftCode_plain (op : BinaryOp) (w : Width) (left right dst : Value) :
    Answers (shiftCode t op w left right dst) (fun out => ∀ i ∈ out, i.isPlain = true) := by
  cases right with
  | constant c =>
      exact .pure (by simp [plainCode, Instr.isPlain, Instr.isSite, Instr.descent])
  | var x =>
      exact (Ensures.self (valueWidth t (.var x))).bind fun _ _ =>
        .pure (by simp [Instr.isPlain, Instr.isSite, Instr.descent])

/-- What is chosen for an instruction has the site of the instruction, if it has one, and leaves the
stack where it was. -/
theorem instrCode_depths (i : ThreeAddress.Instr) :
    Answers (instrCode t i)
      (fun out => descent out = 0 ∧ ∀ d, sites d out = (siteOf? d i).toList) := by
  have hwidth : ∀ (v : Value) {g : Width → Except Fault (List Instr)} {q : List Instr → Prop},
      (∀ w, Answers (g w) q) → Answers (valueWidth t v >>= g) q :=
    fun v _ _ h => (Ensures.self (valueWidth t v)).bind fun w _ => h w
  -- plain instructions neither move the stack pointer nor call
  have hplain : ∀ out : List Instr, (∀ i ∈ out, i.isPlain = true) →
      descent out = 0 ∧ ∀ d, sites d out = [] :=
    fun out h => ⟨descent_of_plain h, sites_of_plain h⟩
  cases i with
  | ret v =>
      exact hwidth v fun _ => .pure ⟨rfl, fun _ => by
        simp [sites, siteOf?, Instr.isSite, Instr.descent]⟩
  | copy src dst => exact hwidth src fun _ => .pure ⟨rfl, fun _ => rfl⟩
  | signExtend _ _ | zeroExtend _ _ | truncate _ _ | jump _ | label _ =>
      exact .pure ⟨rfl, fun _ => rfl⟩
  | unary op src dst =>
      cases op with
      | not => exact hwidth src fun _ => hwidth dst fun _ => .pure ⟨rfl, fun _ => rfl⟩
      | negate | complement => exact hwidth src fun _ => .pure ⟨rfl, fun _ => rfl⟩
  | binary op left right dst =>
      refine (Ensures.self (valueType t left)).bind fun τ _ => ?_
      cases op with
      | arith op => exact .pure (hplain _ (arithCode_plain op _ _ _ _ _))
      | shift op => exact (shiftCode_plain ..).imp hplain
      | compare op => exact hwidth dst fun _ => .pure ⟨rfl, fun _ => rfl⟩
      | other name => exact .error trivial
  | jumpIfZero c _ | jumpIfNotZero c _ =>
      exact hwidth c fun _ => .pure ⟨rfl, fun _ => by
        simp [sites, siteOf?, Instr.isSite, Instr.descent]⟩
  | call f args dst => exact callCode_depths f args dst

/-- A whole body is level from its beginning to its end, and its sites stand at the depths of their
sources. -/
theorem instrsCode_depths (code : List ThreeAddress.Instr) :
    Answers (instrsCode t code)
      (fun out => descent out = 0 ∧ ∀ d, sites d out = code.filterMap (siteOf? d)) := by
  induction code with
  | nil => exact .pure ⟨rfl, fun _ => rfl⟩
  | cons i code ih =>
      rw [instrsCode]
      refine (instrCode_depths i).bind fun out ho => ih.bind fun outs hos => .pure ⟨?_, fun d => ?_⟩
      · rw [descent_append, ho.1, hos.1, Int.add_zero]
      · rw [sites_append, ho.1, Int.add_zero, ho.2, hos.2, List.filterMap_cons]
        cases siteOf? d i <;> rfl

theorem parameterMoves_plain (names : List String) :
    ∀ i, Answers (parameterMoves t i names) (fun out => ∀ j ∈ out, j.isPlain = true) := by
  induction names with
  | nil => exact fun i => .pure (by simp)
  | cons x names ih =>
      intro i
      exact (Ensures.self (valueWidth t (.var x))).bind fun _ _ => (ih (i + 1)).bind fun _ h =>
        .pure (List.forall_mem_cons.2 ⟨rfl, h⟩)

theorem Function.ofCode_depths (f : ThreeAddress.Function) :
    Answers (Function.ofCode t f) (fun g => g.name = f.name ∧ g.global = f.global ∧
      ∀ d, sites d g.instrs = f.body.filterMap (siteOf? d)) := by
  refine (parameterMoves_plain f.params 0).bind fun moves hm => ?_
  refine (instrsCode_depths f.body).bind fun body hb => .pure ⟨rfl, rfl, fun d => ?_⟩
  rw [sites_append, sites_of_plain hm, descent_of_plain hm, Int.add_zero, hb.2, List.nil_append]

/-! ## Placing variables -/

theorem sites_mapOperands (f : Operand → Operand) (code : List Instr) (d : Int) :
    sites d (code.map (Instr.mapOperands f)) = sites d code := by
  induction code generalizing d with
  | nil => rfl
  | cons i code ih =>
      rw [List.map_cons, sites, sites, ih]
      cases i <;> rfl

/-- The frame is allocated in front of everything. -/
theorem sites_apply (l : Layout) (code : List Instr) (d : Int) :
    sites d (l.apply code) = sites (d + l.size) code := by
  have happly : l.apply code = allocate l.size ++ code.map (Instr.mapOperands l.place) := rfl
  rw [happly, sites_append, sites_allocate, descent_allocate, sites_mapOperands, List.nil_append]

/-! ## Mending -/

/-- An instruction that a rule mends is no site, and what is put in its place has no sites and moves
the stack as far. -/
theorem Rule.depths_of_mend? {r : Rule} {i : Instr} {out : List Instr} (h : r.mend? i = some out) :
    i.isSite = false ∧ descent out = i.descent ∧ ∀ d, sites d out = [] := by
  unfold Rule.mend? at h
  split at h
  all_goals try split at h
  all_goals try contradiction
  all_goals
    obtain rfl := Option.some.inj h
    exact ⟨rfl, rfl, fun _ => rfl⟩

/-- Rewriting each instruction to code of its own depth and sites keeps those of the whole. -/
theorem depths_flatMap {f : Instr → List Instr} {code : List Instr}
    (h : ∀ i ∈ code, descent (f i) = i.descent ∧ ∀ d, sites d (f i) = sites d [i]) :
    descent (code.flatMap f) = descent code ∧ ∀ d, sites d (code.flatMap f) = sites d code := by
  induction code with
  | nil => exact ⟨rfl, fun _ => rfl⟩
  | cons i code ih =>
      obtain ⟨hi, hcode⟩ := List.forall_mem_cons.1 h
      obtain ⟨hdescent, hsites⟩ := ih hcode
      refine ⟨?_, fun d => ?_⟩
      · rw [List.flatMap_cons, descent_append, hi.1, hdescent, descent_cons]
      · rw [List.flatMap_cons, sites_append, hi.1, hi.2, hsites, sites_singleton, sites]

/-- Mending keeps what an instruction does to the depth of the stack and which site it is. -/
theorem mend_depths (i : Instr) :
    descent (mend Rule.all i) = i.descent ∧ ∀ d, sites d (mend Rule.all i) = sites d [i] := by
  refine mend_induction (motive := fun i out =>
    descent out = i.descent ∧ ∀ d, sites d out = sites d [i]) ?_ ?_ i
  · exact fun i _ => ⟨Int.add_zero _, fun _ => rfl⟩
  · intro i r _ out hout ih
    obtain ⟨hsite, hdescent, hsites⟩ := Rule.depths_of_mend? hout
    obtain ⟨hdescent', hsites'⟩ := depths_flatMap ih
    refine ⟨hdescent'.trans hdescent, fun d => ?_⟩
    rw [hsites', hsites, sites_singleton, hsite]
    rfl

/-! ## Functions -/

/-- The sites of a function are those of its three-address code, below the frame. -/
theorem Function.CompiledFrom.depths {l : Layout} {f : ThreeAddress.Function} {g : Function}
    (h : Function.CompiledFrom t l f g) : g.name = f.name ∧ g.global = f.global ∧
      sites 0 g.instrs = f.body.filterMap (siteOf? l.size) := by
  obtain ⟨chosen, hchosen, -, rfl⟩ := h
  obtain ⟨hname, hglobal, hsites⟩ := (Function.ofCode_depths f).ok_of_eq hchosen
  refine ⟨hname, hglobal, ?_⟩
  rw [(depths_flatMap fun i _ => mend_depths i).2, sites_apply, hsites, Int.zero_add]

end IntegerC.Machine
