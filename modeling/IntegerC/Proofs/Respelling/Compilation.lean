import IntegerC.Proofs.Compilation
import IntegerC.Proofs.Respelling.Coding
import IntegerC.Proofs.Respelling.LoopNames
import IntegerC.Proofs.Respelling.Resolution
import IntegerC.Proofs.Respelling.Writing

set_option autoImplicit false

/-! # Compiling two spellings

The spelling of parameters and automatic variables cannot be seen from outside: two respelled
programs are both refused, or both are compiled to the same assembly text.
-/

namespace IntegerC

/-- The stages behind the parser. -/
theorem runStages_of_tree {text : String} {ts : List Token} {tree : Program}
    (hts : tokens text = .ok ts) (htree : Program.ofTokens ts = .ok tree) :
    runStages text none = (do
      let checked ← tree.validate []
      let code ← ThreeAddress.Program.ofChecked checked.1 checked.2
      let machine ← Machine.Program.ofThreeAddress code.1 code.2
      return some ⟨code.1, machine.1, machine.2⟩) := by
  simp only [runStages, hts, htree, bind, Except.bind, reduceCtorEq, if_false]

/-- Two respelled programs are both valid or both not, and then alike. -/
theorem Program.validate_alike {p : Span → Prop} {t t' : Program} (h : t.Respelled t')
    (hr : Part.AllRead p t.parts) :
    Agree (t.validate []) (t'.validate []) (fun r r' => ∃ V, Relator.BiUnique V ∧
      SymbolTable.Alike V r.2 r'.2 ∧ r.1.Like (SymbolTable.Paired r.2 r'.2) Eq r'.1) := by
  refine (Program.resolve_alike h hr).bind fun u u' ⟨V, hV, hu⟩ => ?_
  refine (Program.nameLoops_alike hu).bind fun w w' hw => ?_
  exact (Program.check_alike hV hw).imp fun r r' hr => ⟨V, hV, hr⟩

/-- Code under other names of automatic variables becomes the same machine code, for symbols that
only differ in these names. -/
theorem Machine.Program.ofThreeAddress_rename {π : Equiv.Perm String} {t : SymbolTable}
    (h : ∀ e ∈ t, π e.1 = e.1 ∨ e.2.IsAutomatic) (p : ThreeAddress.Program) :
    Agree (ofThreeAddress p t) (ofThreeAddress (p.rename π) (t.rename π))
      (fun m m' => m'.1 = m.1 ∧ ∀ x, Platform.isDefined m'.2 x = Platform.isDefined m.2 x) := by
  have hkeeps := Symbols.keeps_ofTable h
  rw [ofThreeAddress, ofThreeAddress, Symbols.ofTable_rename]
  refine (Program.ofCode_rename t p).bind ?_
  rintro chosen _ rfl
  refine (Program.placed_rename hkeeps chosen).bind ?_
  rintro placed _ rfl
  exact .pure ⟨rfl, Platform.isDefined_rename hkeeps⟩

section

variable {text text' : String} {ts ts' : List Token} {tree tree' : Program}

/-- The stages make the same machine code of both texts, and the same functions are defined. -/
theorem runStages_alike (hts : tokens text = .ok ts) (htree : Program.ofTokens ts = .ok tree)
    (hts' : tokens text' = .ok ts') (htree' : Program.ofTokens ts' = .ok tree')
    (h : tree.Respelled tree') :
    Agree (runStages text none) (runStages text' none) (fun r r' => ∃ c c', r = some c ∧
      r' = some c' ∧ c'.machine = c.machine ∧
      ∀ x, Machine.Platform.isDefined c'.symbols x = Machine.Platform.isDefined c.symbols x) := by
  rw [runStages_of_tree hts htree, runStages_of_tree hts' htree']
  refine (Program.validate_alike h (Program.allRead_of_text hts htree)).bind ?_
  rintro r r' ⟨V, hV, htable, hlike⟩
  refine (ThreeAddress.Program.ofChecked_alike htable (htable.nodup_right hV) hlike).bind ?_
  rintro code _ ⟨π, rfl, hfixed⟩
  refine (Machine.Program.ofThreeAddress_rename hfixed code.1).bind ?_
  rintro machine machine' ⟨hmachine, hdefined⟩
  exact .pure ⟨_, _, rfl, rfl, hmachine, hdefined⟩

/-- Two texts whose programs differ in nothing but the spelling of parameters and automatic
variables are both refused, or both are compiled, and then to the same assembly text on each
platform. -/
theorem assembly_of_respelled (hts : tokens text = .ok ts) (htree : Program.ofTokens ts = .ok tree)
    (hts' : tokens text' = .ok ts') (htree' : Program.ofTokens ts' = .ok tree')
    (h : tree.Respelled tree') :
    (∃ f f', runStages text none = .error f ∧ runStages text' none = .error f') ∨
      ∃ c c', runStages text none = .ok (some c) ∧ runStages text' none = .ok (some c') ∧
        ∀ (p : Machine.Platform) (e : Text.LineEnding), ∃ assembly,
          c.machine.assembly p c.symbols e = .ok assembly ∧
            c'.machine.assembly p c'.symbols e = .ok assembly := by
  rcases (runStages_alike hts htree hts' htree' h).cases with
    ⟨_, _, hr, hr', c, c', rfl, rfl, hmachine, hdefined⟩ | ⟨f, f', hf, hf'⟩
  · obtain ⟨_, hc, hwritable⟩ := (runStages_ensures text none).ok_of_eq hr
    cases hc
    refine .inr ⟨c, c', hr, hr', fun p e => ?_⟩
    -- whatever was compiled can be written
    obtain ⟨assembly, hassembly, -⟩ :=
      (Machine.Program.assembly_succeeds hwritable p c.symbols e).exists_ok
    refine ⟨assembly, hassembly, ?_⟩
    rw [hmachine, Machine.Program.assembly_congr hdefined, hassembly]
  · exact .inl ⟨f, f', hf, hf'⟩

end

/-- The text of a function with two parameters and two automatic variables. -/
def plainText : String :=
  "int g = 3; int f(int a, int b) \x7b int c = a * b; " ++
    "\x7b int a = c; c = a; \x7d return c; \x7d"

/-- The same function with parameters that are spelled like a temporary and like the variable of the
file scope, and with a variable that is spelled like the function. -/
def respelledText : String :=
  "int g = 3; int f(int tmp, int g) \x7b int c = tmp * g; " ++
    "\x7b int f = c; c = f; \x7d return c; \x7d"

theorem assembly_of_respelledText :
    ∃ ts ts' tree tree', tokens plainText = .ok ts ∧ Program.ofTokens ts = .ok tree ∧
      tokens respelledText = .ok ts' ∧ Program.ofTokens ts' = .ok tree' ∧ tree.Respelled tree' ∧
      ((∃ f f', runStages plainText none = .error f ∧ runStages respelledText none = .error f') ∨
        ∃ c c', runStages plainText none = .ok (some c) ∧
          runStages respelledText none = .ok (some c') ∧
          ∀ (p : Machine.Platform) (e : Text.LineEnding), ∃ assembly,
            c.machine.assembly p c.symbols e = .ok assembly ∧
              c'.machine.assembly p c'.symbols e = .ok assembly) := by
  have hplain : plainText.toList = _ := toList_append_eq String.toList_ofList String.toList_ofList
  have hrespelled : respelledText.toList = _ :=
    toList_append_eq String.toList_ofList String.toList_ofList
  have h : ((tokens plainText).toOption.bind fun ts =>
      (Program.ofTokens ts).toOption.bind fun tree =>
        (tokens respelledText).toOption.bind fun ts' =>
          (Program.ofTokens ts').toOption.bind fun tree' =>
            some (decide (tree.Respelled tree'))) = some true := by
    simp only [tokens, hplain, hrespelled]
    decide +kernel
  obtain ⟨ts, hts, h⟩ := toOption_bind_eq_some.1 h
  obtain ⟨tree, htree, h⟩ := toOption_bind_eq_some.1 h
  obtain ⟨ts', hts', h⟩ := toOption_bind_eq_some.1 h
  obtain ⟨tree', htree', h⟩ := toOption_bind_eq_some.1 h
  have hspelled : tree.Respelled tree' := of_decide_eq_true (Option.some.inj h)
  exact ⟨ts, ts', tree, tree', hts, htree, hts', htree', hspelled,
    assembly_of_respelled hts htree hts' htree' hspelled⟩

end IntegerC
