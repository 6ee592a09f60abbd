import Mathlib.Algebra.Group.Int.Defs
import IntegerC.Proofs.Folding
import IntegerC.Proofs.Grammar.Literals
import IntegerC.Proofs.Linking
import IntegerC.Proofs.ThreeAddress.CodeConstants

set_option autoImplicit false

/-! # Ranges

Constants are values of their types on the whole way from the text to the machine. A literal that no
type holds is refused, every operator on constants converts its result, and what a declaration
records as the initial value of an object was converted to the type of the object. So what the data
section is filled with fits the width of its object.
-/

namespace IntegerC

theorem Constant.inRange_zero (t : IntType) : (Constant.zero t).InRange := by
  have holds : t.Holds 0 := by cases t <;> decide
  exact holds

/-! ## Constant expressions -/

/-- What an expression folds to is a value of its type. -/
theorem Expr.inRange_of_constant? {e : Expr} {c : Constant} (he : e.InRange)
    (hc : e.constant? = .ok (some c)) : c.InRange := by
  unfold constant? at hc
  split at hc
  · cases hc
  · rename_i f hfold
    obtain ⟨n, hn, e⟩ := map_eq_ok.1 hc
    cases e
    obtain ⟨e', -, hagrees⟩ := check_of_fold_eq [] f he hfold
    exact (hagrees.value n hn).1

/-! ## Initial values -/

/-- The initial value of an object is a value of its type. -/
def Symbol.Initialized (s : Symbol) : Prop :=
  ∀ c global, s.attributes = .static (.initial c) global →
    c.InRange ∧ s.type = .integer c.type

def SymbolTable.Initialized (t : SymbolTable) : Prop := ∀ e ∈ t, e.2.Initialized

theorem Symbol.initialized_static {τ : IntType} {i : InitialValue} {global : Bool}
    (h : ∀ c, i = .initial c → c.InRange ∧ c.type = τ) :
    Symbol.Initialized ⟨.integer τ, .static i global⟩ := by
  intro c g hc
  cases hc
  obtain ⟨hrange, hτ⟩ := h c rfl
  exact ⟨hrange, congrArg CType.integer hτ.symm⟩

theorem Symbol.initialized_automatic (τ : IntType) : (Symbol.automatic τ).Initialized := by
  intro c g hc
  cases hc

theorem Symbol.initialized_function {τ : CType} {defined global : Bool} :
    Symbol.Initialized ⟨τ, .function defined global⟩ := by
  intro c g hc
  cases hc

/-- The initial value of two declarations together is that of one of them. -/
theorem InitialValue.merge_eq_initial {old new : InitialValue} {c : Constant}
    (h : old.merge new = some (.initial c)) : old = .initial c ∨ new = .initial c := by
  cases old <;> cases new <;> simp_all [merge]

/-- The value given to a static variable is converted to the type of the variable, so it is in
range. -/
theorem VarDecl.inRange_of_staticValue? {d : VarDecl} {value : Option Constant}
    (h : d.staticValue? = .ok value) : ∀ c ∈ value, c.InRange ∧ c.type = d.type := by
  unfold staticValue? at h
  split at h
  · cases h
    simp
  · obtain ⟨c, hc, e⟩ := map_eq_ok.1 h
    cases e
    obtain ⟨o, -, hc⟩ := bind_eq_ok.1 hc
    split at hc
    · cases hc
      simpa using ⟨Constant.inRange_convert _ _, rfl⟩
    · cases hc

/-- A declaration at file scope gives its own value, or leaves the value that was there before. -/
theorem VarDecl.initialized_fileEntry {d : VarDecl} {value : Option Constant}
    {old : Option Symbol} {s : Symbol} (hvalue : ∀ c ∈ value, c.InRange ∧ c.type = d.type)
    (hold : ∀ s' ∈ old, s'.Initialized) (h : d.fileEntry value old = .ok s) : s.Initialized := by
  unfold fileEntry at h
  extract_lets initial at h
  -- an initial value that is written down is the one that was checked
  have hown : ∀ c, initial = .initial c → c.InRange ∧ c.type = d.type := by
    intro c hc
    cases value with
    | some c' =>
        obtain rfl : c' = c := InitialValue.initial.inj hc
        exact hvalue c' rfl
    | none =>
        simp only [initial] at hc
        split at hc <;> cases hc
  split at h
  · cases h
    exact Symbol.initialized_static hown
  · rename_i oldType oldInitial oldGlobal
    split at h
    · cases h
    rename_i htype
    split at h
    · cases h
    split at h
    · cases h
    rename_i merged hmerge
    cases h
    refine Symbol.initialized_static fun c hc => ?_
    subst hc
    -- the merged value is one of the two, and each of them is of the type
    rcases InitialValue.merge_eq_initial hmerge with hc | hc
    · obtain ⟨hrange, hτ⟩ := hold _ rfl c oldGlobal (congrArg (Attributes.static · _) hc)
      rw [Decidable.not_not.1 htype] at hτ
      exact ⟨hrange, (CType.integer.inj hτ).symm⟩
    · exact hown c hc
  · cases h

namespace SymbolTable

variable {t u : SymbolTable} {x : String} {s : Symbol}

theorem Initialized.find? (ht : t.Initialized) : ∀ s ∈ t.find? x, s.Initialized :=
  fun _ hs => ht _ (Table.mem_of_find?_eq_some hs)

theorem Initialized.put (ht : t.Initialized) (hs : s.Initialized) :
    Initialized (t.put x s) := by
  induction t with
  | nil => exact List.forall_mem_singleton.2 hs
  | cons e t ih =>
      obtain ⟨y, s'⟩ := e
      obtain ⟨hs', ht⟩ := List.forall_mem_cons.1 ht
      rw [Table.put]
      split
      · exact List.forall_mem_cons.2 ⟨hs, ht⟩
      · exact List.forall_mem_cons.2 ⟨hs', ih ht⟩

theorem Initialized.withParams (ht : t.Initialized) (ps : List Param) :
    (t.withParams ps).Initialized := by
  induction ps generalizing t with
  | nil => exact ht
  | cons p ps ih => exact ih (ht.put (Symbol.initialized_automatic p.type))

/-- What one part records keeps initial values in range. -/
theorem Initialized.records {part : Part} (ht : t.Initialized) (h : part.Records t u) :
    u.Initialized := by
  cases h with
  | span | loop | expr | known _ _ _ _ => exact ht
  | fileVar hv hs =>
      exact ht.put (VarDecl.initialized_fileEntry (VarDecl.inRange_of_staticValue? hv) ht.find? hs)
  | external _ _ _ => exact ht.put (Symbol.initialized_static fun c hc => by cases hc)
  | @static d value _ hv =>
      refine ht.put (Symbol.initialized_static fun c hc => ?_)
      cases hc
      cases value with
      | none => exact ⟨Constant.inRange_zero _, rfl⟩
      | some c => exact VarDecl.inRange_of_staticValue? hv c rfl
  | automatic _ => exact ht.put (Symbol.initialized_automatic _)
  | prototype hs =>
      obtain ⟨-, _, _, rfl, -⟩ := FunHeader.entry_cases hs
      exact ht.put Symbol.initialized_function
  | function hs =>
      obtain ⟨-, _, _, rfl, -⟩ := FunHeader.entry_cases hs
      exact (ht.put Symbol.initialized_function).withParams _

/-- So does the whole program. -/
theorem Initialized.recorded {parts : List Part} (ht : t.Initialized)
    (h : Part.Recorded t parts u) : u.Initialized := by
  induction h with
  | nil => exact ht
  | cons h _ ih => exact ih (ht.records h)

theorem Initialized.append_entries (ht : t.Initialized) (temps : Table IntType) :
    Initialized (t ++ ThreeAddress.entries temps) := by
  refine List.forall_mem_append.2 ⟨ht, ?_⟩
  rw [ThreeAddress.entries, List.forall_mem_map]
  exact fun e _ => Symbol.initialized_automatic e.2

end SymbolTable

/-! ## Code -/

/-- The constants of instructions are as literals make them, and those of static variables are
values of the types of the variables. -/
structure ThreeAddress.Program.InRange (p : Program) : Prop where
  functions : ∀ f, .function f ∈ p.topLevels → AllNatural f.body
  statics : ∀ v, .static v ∈ p.topLevels → v.init.InRange ∧ v.init.type = v.type

/-- A static variable starts with a value in the range of its own type, a tentative one with
zero. -/
theorem ThreeAddress.StaticVar.inRange_of_ofSymbol? {x : String} {s : Symbol} {v : StaticVar}
    (hs : s.Initialized) (h : ofSymbol? x s = some v) : v.init.InRange ∧ v.init.type = v.type := by
  unfold ofSymbol? at h
  split at h
  · cases h
    exact ⟨Constant.inRange_zero _, rfl⟩
  · cases h
    obtain ⟨hrange, hτ⟩ := hs _ _ rfl
    exact ⟨hrange, (CType.integer.inj hτ).symm⟩
  · cases h

namespace Program.Validated

variable {p q : Program} {t : SymbolTable}

theorem initialized (h : p.Validated q t) : t.Initialized :=
  SymbolTable.Initialized.recorded (t := []) (by simp [SymbolTable.Initialized]) h.recorded

theorem constants (h : p.Validated q t) (hp : Part.EachConstant Constant.Natural p.parts) :
    ∀ n c, .constant n c ∈ q.exprs → c.InRange :=
  eachConstant_parts.1 fun x hx => (h.elaborates.constants hp x hx).every

/-- The code of a program whose literals are in range. -/
theorem code_inRange (h : p.Validated q t) (hp : Part.EachConstant Constant.Natural p.parts)
    {r : ThreeAddress.Program × SymbolTable} (hr : ThreeAddress.Program.ofChecked q t = .ok r) :
    r.1.InRange ∧ r.2.Initialized := by
  obtain ⟨hi, hloops⟩ := h.loops
  rw [← Decl.loops_of_elaborate h.elaborates.2] at hloops
  obtain ⟨fs, temps, hlinks⟩ := ThreeAddress.Program.ofChecked_links h.checked hloops hr
  have hconstants := h.elaborates.constants hp
  have hdecls : ∀ d ∈ q.decls, Part.AllInRange d.parts :=
    fun d hd x hx => hconstants x (List.mem_flatMap.2 ⟨d, hd, hx⟩)
  have hinitialized := h.initialized
  refine ⟨⟨fun f hf => ?_, fun v hv => ?_⟩, ?_⟩
  · obtain ⟨⟨gs, s⟩, hgs, e⟩ := bind_eq_ok.1 hr
    cases e
    have hf : f ∈ gs := by simpa using hf
    exact (ThreeAddress.Coder.functions_natural q.decls ⟨t, 0, 0⟩ hdecls).ok_of_eq hgs f hf
  · rw [hlinks.topLevels] at hv
    have hv : v ∈ ThreeAddress.staticVars t := by simpa using hv
    obtain ⟨e, he, hs⟩ := ThreeAddress.mem_staticVars.1 hv
    exact ThreeAddress.StaticVar.inRange_of_ofSymbol? (hinitialized e he) hs
  · rw [hlinks.symbols]
    exact hinitialized.append_entries temps

end Program.Validated

/-! ## The data section -/

/-- The initial value of a static variable can be written in as many bytes as the variable has, with
or without a sign. -/
def Machine.StaticVar.Fits (v : StaticVar) : Prop :=
  -2 ^ (8 * v.width.size - 1) ≤ v.init ∧ v.init ≤ 2 ^ (8 * v.width.size) - 1

theorem Machine.StaticVar.fits_ofCode {v : ThreeAddress.StaticVar}
    (h : v.init.InRange ∧ v.init.type = v.type) : (StaticVar.ofCode v).Fits := by
  obtain ⟨⟨hmin, hmax⟩, htype⟩ := h
  rw [htype] at hmin hmax
  unfold Fits
  cases hτ : v.type <;>
    simp [hτ, StaticVar.ofCode, IntType.min, IntType.max, IntType.signed, IntType.card,
      IntType.size] at hmin hmax ⊢ <;>
    omega

/-- The data of a machine program fits its directives, since each value is in the range of its
type. -/
theorem Machine.Program.fits_of_ofThreeAddress {p : ThreeAddress.Program} {t : SymbolTable}
    (hp : p.InRange) : Answers (ofThreeAddress p t) (fun r => ∀ v ∈ r.1.statics, v.Fits) := by
  refine (ofThreeAddress_compiled p t).imp fun r hr v hv => ?_
  obtain ⟨top, htop, e⟩ := List.mem_filterMap.1 hv
  obtain ⟨top', htop', hrelated⟩ := forall₂_exists_left hr.2 htop
  cases hrelated with
  | function _ => cases e
  | @static v' =>
      cases e
      exact StaticVar.fits_ofCode (hp.statics v' htop')

/-! ## Texts -/

/-- Names are resolved and loops are labelled before types are given, which leaves the constants of
literals as they are. -/
theorem Program.stages_of_text {text : String} {ts : List Token} {tree p : Program}
    {t : SymbolTable} (hts : tokens text = .ok ts) (htree : Program.ofTokens ts = .ok tree)
    (hp : tree.validate [] = .ok (p, t)) :
    ∃ r l, tree.resolve = .ok r ∧ r.nameLoops = .ok l ∧ l.check [] = .ok (p, t) ∧
      Part.EachConstant Constant.Natural l.parts := by
  obtain ⟨r, hr, hp⟩ := bind_eq_ok.1 hp
  obtain ⟨l, hl, hp⟩ := bind_eq_ok.1 hp
  have hmap := ((resolve_scoped_of_written (written_of_text hts htree)).ok_of_eq hr).2.2
  obtain ⟨hi, hresolved⟩ := (resolve_ensures (allRead_of_text hts htree)).ok_of_eq hr
  obtain ⟨hsame, -⟩ := (nameLoops_ensures hresolved.read).ok_of_eq hl
  exact ⟨r, l, hr, hl, hp,
    hsame.eachConstant (eachConstant_of_mapNames hmap (natural_of_text hts htree))⟩

/-- The constants of a tree that was read, of the checked tree, of its table and of its code are
values of their types, and those of instructions are not negative. The objects of the table and of
the code have values of their own types, which fit the objects of the machine program. And a
constant expression whose constants are in range is in range itself. -/
theorem ranges_of_text :
    (∀ text ts tree, tokens text = .ok ts → Program.ofTokens ts = .ok tree →
      (∀ n c, .constant n c ∈ tree.exprs → c.InRange) ∧
      ∀ p t, tree.validate [] = .ok (p, t) →
        (∀ n c, .constant n c ∈ p.exprs → c.InRange) ∧ t.Initialized ∧
        ∀ code u, ThreeAddress.Program.ofChecked p t = .ok (code, u) →
          code.InRange ∧ u.Initialized ∧
          ∀ m s, Machine.Program.ofThreeAddress code u = .ok (m, s) → ∀ v ∈ m.statics, v.Fits) ∧
    ∀ (e : Expr) c, e.InRange → e.constant? = .ok (some c) → c.InRange := by
  refine ⟨fun text ts tree hts htree => ?_, fun e c => Expr.inRange_of_constant?⟩
  have hnatural := Program.natural_of_text hts htree
  refine ⟨fun n c hc => (Program.eachConstant_parts.1 hnatural n c hc).inRange, fun p t hp => ?_⟩
  obtain ⟨r, l, hr, hl, hp, hlabelled⟩ := Program.stages_of_text hts htree hp
  have hvalidated := Program.validated_of_text hts htree hr hl hp
  refine ⟨hvalidated.constants hlabelled, hvalidated.initialized, fun code u hcode => ?_⟩
  obtain ⟨hrange, hinitialized⟩ := hvalidated.code_inRange hlabelled hcode
  exact ⟨hrange, hinitialized, fun m s hm =>
    (Machine.Program.fits_of_ofThreeAddress hrange).ok_of_eq hm⟩

/-- The text of a program with initializers that other types than their own ask for. -/
def convertedText : String :=
  "unsigned u = -1; static long l = 4294967296 * 3 - 1u; " ++
    "int main(void) \x7b static int i = 4294967297; return u ? i << 2 : -l; \x7d"

theorem ranges_of_convertedText :
    ∃ ts tree p t code u m s, tokens convertedText = .ok ts ∧ Program.ofTokens ts = .ok tree ∧
      tree.validate [] = .ok (p, t) ∧ ThreeAddress.Program.ofChecked p t = .ok (code, u) ∧
      Machine.Program.ofThreeAddress code u = .ok (m, s) ∧
      m.statics.map (fun v => (v.name, v.init)) =
        [("u", 4294967295), ("l", 12884901887), ("i.0", 1)] ∧
      (∀ n c, .constant n c ∈ tree.exprs → c.InRange) ∧
      (∀ n c, .constant n c ∈ p.exprs → c.InRange) ∧ t.Initialized ∧ code.InRange ∧
      u.Initialized ∧ ∀ v ∈ m.statics, v.Fits := by
  have hchars : convertedText.toList = _ :=
    toList_append_eq String.toList_ofList String.toList_ofList
  have h : ((tokens convertedText).toOption.bind fun ts =>
      (Program.ofTokens ts).toOption.bind fun tree => (tree.validate []).toOption.bind fun r =>
        (ThreeAddress.Program.ofChecked r.1 r.2).toOption.bind fun c =>
          (Machine.Program.ofThreeAddress c.1 c.2).toOption.bind fun m =>
            some (m.1.statics.map fun v => (v.name, v.init))) =
      some [("u", 4294967295), ("l", 12884901887), ("i.0", 1)] := by
    rw [tokens, hchars]
    decide +kernel
  obtain ⟨ts, hts, h⟩ := toOption_bind_eq_some.1 h
  obtain ⟨tree, htree, h⟩ := toOption_bind_eq_some.1 h
  obtain ⟨⟨p, t⟩, hp, h⟩ := toOption_bind_eq_some.1 h
  obtain ⟨⟨code, u⟩, hcode, h⟩ := toOption_bind_eq_some.1 h
  obtain ⟨⟨m, s⟩, hm, h⟩ := toOption_bind_eq_some.1 h
  obtain ⟨hread, hchecked⟩ := ranges_of_text.1 convertedText ts tree hts htree
  obtain ⟨hvalid, htable, hfinal⟩ := hchecked p t hp
  obtain ⟨hrange, hinitialized, hdata⟩ := hfinal code u hcode
  exact ⟨ts, tree, p, t, code, u, m, s, hts, htree, hp, hcode, hm, Option.some.inj h, hread, hvalid,
    htable, hrange, hinitialized, hdata m s hm⟩

end IntegerC
