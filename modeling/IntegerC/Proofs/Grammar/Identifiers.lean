import IntegerC.Proofs.Grammar.Literals

set_option autoImplicit false

/-! # The names of what is read

Every name that a program of the grammar declares stands in its text as an identifier.
-/

namespace IntegerC

variable {lax : Bool} {ls ls' : List Lexeme}

/-- All names that the parts declare are among the identifiers of the list. -/
def Part.DeclareFrom (ls : List Lexeme) (xs : List Part) : Prop :=
  ∀ x ∈ xs, ∀ name ∈ x.declared, ⟨.identifier, name⟩ ∈ ls

namespace Part

variable {x : Part} {xs ys : List Part}

theorem DeclareFrom.mono (h : DeclareFrom ls xs) (hls : ls ⊆ ls') : DeclareFrom ls' xs :=
  fun x hx name hname => hls (h x hx name hname)

@[simp] theorem declareFrom_nil : DeclareFrom ls [] := by simp [DeclareFrom]

@[simp] theorem declareFrom_cons : DeclareFrom ls (x :: xs) ↔
    (∀ name ∈ x.declared, ⟨.identifier, name⟩ ∈ ls) ∧ DeclareFrom ls xs :=
  List.forall_mem_cons

@[simp] theorem declareFrom_append :
    DeclareFrom ls (xs ++ ys) ↔ DeclareFrom ls xs ∧ DeclareFrom ls ys :=
  List.forall_mem_append

/-- Expressions declare nothing. -/
@[simp] theorem declareFrom_optional {o : Option Expr} : DeclareFrom ls (Part.optional o) := by
  cases o <;> simp [Part.optional, declared]

end Part

theorem Lexeme.eq_identifier {x : Lexeme} (h : x.kind = .identifier) :
    x = ⟨.identifier, x.text⟩ := by
  cases x
  cases h
  rfl

/-- The name of each parameter stands among the lexemes. -/
theorem Param.AllDerive.names {params : List Param} (h : Param.AllDerive lax ls params) :
    ∀ q ∈ params, ⟨.identifier, q.name⟩ ∈ ls := by
  cases h with
  | nothing => simp
  | some _ params _ hparams hls _ =>
      intro q hq
      obtain ⟨⟨piece, q⟩, hmem, rfl⟩ := List.mem_map.1 hq
      have hinfix := hls.isInfix piece (List.mem_map.2 ⟨_, hmem, rfl⟩)
      cases hparams _ hmem with
      | mk _ _ hx =>
          have hmem := hinfix.subset (List.mem_append_right _ (List.mem_singleton_self _))
          rw [Lexeme.eq_identifier hx] at hmem
          simp [hmem]

theorem Item.declareFrom_allParts {is : List Item} (h : ∀ i ∈ is, Part.DeclareFrom ls i.parts) :
    Part.DeclareFrom ls (Item.allParts is) := by
  induction is with
  | nil => simp [Item.allParts]
  | cons i is ih =>
      obtain ⟨hi, his⟩ := List.forall_mem_cons.1 h
      exact Part.declareFrom_append.2 ⟨hi, ih his⟩

/-- Whatever a phrase declares stands in its text as an identifier. -/
theorem Phrase.Derives.declareFrom {x : Phrase} (h : x.Derives lax ls) :
    Part.DeclareFrom ls x.parts := by
  induction h with
  | ret | expr | breakLoop | continueLoop | null | noInit | exprInit =>
      simp [parts, Stmt.parts, ForInit.parts, Part.declared]
  | ifThen _ _ _ _ ihyes =>
      simpa [parts, Stmt.parts, Part.declared] using ihyes.mono (by simp)
  | ifElse _ _ _ _ _ _ _ ihyes ihno =>
      simpa [parts, Stmt.parts, Part.declared] using
        ⟨ihyes.mono fun _ h => by simp [h], ihno.mono fun _ h => by simp [h]⟩
  | compound _ _ ih => simpa [parts, Stmt.parts, Part.declared] using ih
  | whileLoop _ _ _ _ ihbody =>
      simpa [parts, Stmt.parts, Part.declared] using ihbody.mono (by simp)
  | doLoop _ _ _ _ _ _ ihbody =>
      simpa [parts, Stmt.parts, Part.declared] using ihbody.mono (by simp)
  | forLoop _ _ _ _ _ _ _ _ _ ihinit ihbody =>
      simpa [parts, Stmt.parts, Part.declared] using
        ⟨ihinit.mono fun _ h => by simp [h], ihbody.mono fun _ h => by simp [h]⟩
  | stmtItem _ ih => exact ih
  | @declItem _ d _ ih =>
      cases d with
      | var d => simpa [parts, Item.parts, Decl.parts, Part.declared] using ih
      | prototype _ => exact ih
      | function _ _ _ => exact ih
  | block _ items _ _ ih =>
      refine Item.declareFrom_allParts ?_
      rw [List.forall_mem_map]
      intro x hx
      refine (ih x hx).mono fun l hl => ?_
      have hflat : l ∈ (items.map Prod.fst).flatten :=
        List.mem_flatten.2 ⟨_, List.mem_map_of_mem hx, hl⟩
      simp [hflat]
  | var _ _ hx _ _ => simp [parts, Decl.parts, Part.declared, ← Lexeme.eq_identifier hx]
  | prototype _ _ hx hparams _ =>
      have hnames := hparams.names
      simp only [parts, Decl.parts, Part.declareFrom_cons, Part.declareFrom_nil, Part.declared,
        FunHeader.paramNames, List.forall_mem_cons, List.forall_mem_map, ← Lexeme.eq_identifier hx]
      exact ⟨⟨by simp, fun q hq => by simp [hnames q hq]⟩, trivial⟩
  | function _ _ _ hx hparams _ ihbody =>
      have hnames := hparams.names
      simp only [parts, Decl.parts, Part.declareFrom_cons, Part.declared,
        FunHeader.paramNames, List.forall_mem_cons, List.forall_mem_map, ← Lexeme.eq_identifier hx]
      exact ⟨⟨by simp, fun q hq => by simp [hnames q hq]⟩, List.forall_mem_nil _,
        ihbody.mono fun _ h => by simp [h]⟩
  | declInit _ ih => simpa [parts, Decl.parts, ForInit.parts, Part.declared] using ih

/-- Every part of a derivation takes its names from identifiers of the text. -/
theorem Program.Derives.declareFrom {p : Program} (h : p.Derives lax ls) :
    Part.DeclareFrom ls p.parts := by
  cases h with
  | mk _ decls h =>
      intro x hx
      obtain ⟨d, hd, hx⟩ := List.mem_flatMap.1 hx
      obtain ⟨⟨piece, d⟩, hmem, rfl⟩ := List.mem_map.1 hd
      have hsub : piece ⊆ (decls.map Prod.fst).flatten :=
        fun l hl => List.mem_flatten.2 ⟨_, List.mem_map_of_mem hmem, hl⟩
      exact ((h _ hmem).declareFrom.mono hsub) x hx

/-- Every name that a program declares that was read from a text is an identifier. -/
theorem Program.identifiers_of_text {text : String} {ts : List Token} {tree : Program}
    (hts : tokens text = .ok ts) (htree : Program.ofTokens ts = .ok tree) :
    ∀ x ∈ tree.parts, ∀ name ∈ x.declared, IsIdentifier name := by
  obtain ⟨ts', last, rfl, hends, hwords⟩ := tokens_endsOnce hts
  intro x hx name hname
  have hmem := (Program.derives_of_ofTokens hends htree).declareFrom x hx name hname
  obtain ⟨t, ht, hlexeme⟩ := List.mem_map.1 hmem
  obtain ⟨hkind, rfl⟩ := Lexeme.mk.inj hlexeme
  exact hwords t ht hkind

end IntegerC
