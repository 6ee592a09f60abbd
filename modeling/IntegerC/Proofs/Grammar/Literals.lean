import IntegerC.Proofs.Constants
import IntegerC.Proofs.Grammar.Printing

set_option autoImplicit false

/-! # The constants of what is read

Every constant in a program that the grammar derives stands for a literal, so it is a value of its
type and not negative.
-/

namespace IntegerC

variable {lax : Bool} {ls : List Lexeme}

theorem Suffix.natural_of_constant? {s : Suffix} {text : String} {c : Constant}
    (h : s.constant? text = some c) : c.Natural :=
  ⟨inRange_of_constant? h, value_nonneg_of_constant? h⟩

/-- Literals are natural numbers of their types. Signs are operators and not part of them. -/
theorem Expr.Derives.natural {p : Nat} {e : Expr} (h : e.Derives lax p ls) :
    e.EachConstant Constant.Natural := by
  induction h with
  | constant _ _ hk => exact eachConstant_constant.2 (Suffix.natural_of_constant? hk)
  | var _ _ => exact eachConstant_var
  | call _ _ _ args _ _ _ ih =>
      rw [eachConstant_call, List.forall_mem_map]
      exact ih
  | parens _ _ _ ih => exact ih
  | cast _ _ _ _ _ ih => exact eachConstant_cast.2 ih
  | unary _ _ _ _ ih => exact eachConstant_unary.2 ih
  | binary _ _ _ _ _ iha ihb => exact eachConstant_binary.2 ⟨iha, ihb⟩
  | assignment _ _ _ _ _ iha ihb => exact eachConstant_assignment.2 ⟨iha, ihb⟩
  | conditional _ _ _ _ _ _ _ iha ihb ihc => exact eachConstant_conditional.2 ⟨iha, ihb, ihc⟩

theorem Expr.Parenthesized.natural {e : Expr} (h : e.Parenthesized lax ls) :
    e.EachConstant Constant.Natural := by
  cases h with
  | mk _ h _ => exact h.natural

theorem Expr.OptionDerives.natural {o : Option Expr} (h : OptionDerives lax ls o) :
    ∀ e ∈ o, e.EachConstant Constant.Natural := by
  cases h with
  | none => simp
  | some h => simpa using h.natural

theorem Expr.InitializerDerives.natural {o : Option Expr} (h : InitializerDerives lax ls o) :
    ∀ e ∈ o, e.EachConstant Constant.Natural := by
  cases h with
  | none => simp
  | some _ h => simpa using h.natural

def Phrase.parts : Phrase → List Part
  | .stmt s => s.parts
  | .item i => i.parts
  | .decl d => d.parts
  | .block is => Item.allParts is
  | .init i => i.parts

theorem Part.natural_expr {e : Expr} (h : e.EachConstant Constant.Natural) :
    (Part.expr e).Natural :=
  Part.constants_expr.2 ⟨h, h⟩

theorem Part.natural_optional {o : Option Expr} (h : ∀ e ∈ o, e.EachConstant Constant.Natural) :
    Part.AllNatural (Part.optional o) :=
  Part.allConstants_optional.2 fun e he => ⟨h e he, h e he⟩

theorem Part.natural_var_iff {d : VarDecl} : (Part.var d).Natural ↔ (Part.fileVar d).Natural :=
  ⟨fun h => Part.constants_fileVar.2 (Part.constants_var.1 h).1,
    fun h => Part.constants_var.2 ⟨Part.constants_fileVar.1 h, fun _ => Part.constants_fileVar.1 h⟩⟩

theorem Item.natural_allParts {is : List Item} (h : ∀ i ∈ is, Part.AllNatural i.parts) :
    Part.AllNatural (Item.allParts is) := by
  induction is with
  | nil => simp [Item.allParts]
  | cons i is ih =>
      obtain ⟨hi, his⟩ := List.forall_mem_cons.1 h
      exact Part.allConstants_append.2 ⟨hi, ih his⟩

/-- By induction on the derivation, with the fact about literals in each expression. -/
theorem Phrase.Derives.natural {x : Phrase} (h : x.Derives lax ls) : Part.AllNatural x.parts := by
  induction h with
  | ret _ _ he _ | expr _ he _ =>
      simpa [parts, Stmt.parts] using Part.natural_expr he.natural
  | ifThen _ _ hc _ ihyes =>
      simpa [parts, Stmt.parts] using ⟨Part.natural_expr hc.natural, ihyes⟩
  | ifElse _ _ hc _ _ _ _ ihyes ihno =>
      simpa [parts, Stmt.parts] using ⟨Part.natural_expr hc.natural, ihyes, ihno⟩
  | compound _ _ ih => simpa [parts, Stmt.parts] using ih
  | breakLoop | continueLoop | null => simp [parts, Stmt.parts]
  | whileLoop _ _ hc _ ihbody =>
      simpa [parts, Stmt.parts] using ⟨Part.natural_expr hc.natural, ihbody⟩
  | doLoop _ _ _ _ hc _ ihbody =>
      simpa [parts, Stmt.parts] using ⟨ihbody, Part.natural_expr hc.natural⟩
  | forLoop _ _ _ _ hc _ hpost _ _ ihinit ihbody =>
      simpa [parts, Stmt.parts] using ⟨ihinit, Part.natural_optional hc.natural,
        Part.natural_optional hpost.natural, ihbody⟩
  | stmtItem _ ih => exact ih
  | @declItem _ d _ ih =>
      cases d with
      | var d => simpa [parts, Item.parts, Decl.parts, Part.natural_var_iff] using ih
      | prototype _ => exact ih
      | function _ _ _ => exact ih
  | block _ items _ _ ih =>
      refine Item.natural_allParts ?_
      rw [List.forall_mem_map]
      exact ih
  | var _ _ _ hinit _ =>
      simpa [parts, Decl.parts, Part.constants_fileVar] using hinit.natural
  | prototype => simp [parts, Decl.parts]
  | function _ _ _ _ _ _ ihbody => simpa [parts, Decl.parts] using ihbody
  | declInit _ ih => simpa [parts, Decl.parts, ForInit.parts, Part.natural_var_iff] using ih
  | noInit => simp [parts, ForInit.parts]
  | exprInit he _ => simpa [parts, ForInit.parts] using Part.natural_expr he.natural

/-- Every constant of a derived program comes from digits, so none is negative. -/
theorem Program.Derives.natural {p : Program} (h : p.Derives lax ls) :
    Part.EachConstant Constant.Natural p.parts := by
  cases h with
  | mk _ decls h =>
      intro x hx
      obtain ⟨d, hd, hx⟩ := List.mem_flatMap.1 hx
      obtain ⟨⟨piece, d⟩, hmem, rfl⟩ := List.mem_map.1 hd
      exact ((h _ hmem).natural x hx).every

/-- Every constant of a program that was read from a text is that of a literal. -/
theorem Program.natural_of_text {text : String} {ts : List Token} {tree : Program}
    (hts : tokens text = .ok ts) (htree : Program.ofTokens ts = .ok tree) :
    Part.EachConstant Constant.Natural tree.parts := by
  obtain ⟨ts', last, rfl, hends, -⟩ := tokens_endsOnce hts
  exact (Program.derives_of_ofTokens hends htree).natural

end IntegerC
