import IntegerC.Proofs.Respelling.Tables
import IntegerC.ThreeAddress.ExprCode
import Mathlib.GroupTheory.GroupAction.MultipleTransitivity

set_option autoImplicit false

/-! # Renaming tables and code

`rename f` puts `f x` in the place of every name `x` of a variable. Two alike symbol tables are
renamings of each other under a permutation of all names, so whatever is looked up under a name in
one of them is found under the new name in the other.
-/

namespace IntegerC

/-! ## Tables -/

namespace Table

variable {α : Type}

def rename (f : String → String) (t : Table α) : Table α := t.map fun e => (f e.1, e.2)

variable (f : String → String)

@[simp] theorem rename_nil : rename f ([] : Table α) = [] := rfl

@[simp] theorem rename_cons (x : String) (a : α) (t : Table α) :
    rename f ((x, a) :: t) = (f x, a) :: t.rename f := rfl

@[simp] theorem rename_append (t u : Table α) : rename f (t ++ u) = t.rename f ++ u.rename f :=
  List.map_append

@[simp] theorem names_rename (t : Table α) : (t.rename f).names = t.names.map f := by
  simp [names, rename]

variable {f}

/-- Under an injective renaming an entry is found under its new name. -/
theorem find?_rename (hf : Function.Injective f) (t : Table α) (x : String) :
    (t.rename f).find? (f x) = t.find? x := by
  induction t with
  | nil => rfl
  | cons e t ih =>
      obtain ⟨n, a⟩ := e
      rw [rename_cons, find?_cons, find?_cons, ih]
      simp only [hf.eq_iff]

theorem put_rename (hf : Function.Injective f) (t : Table α) (x : String) (a : α) :
    (t.rename f).put (f x) a = (t.put x a).rename f := by
  induction t with
  | nil => rfl
  | cons e t ih =>
      obtain ⟨n, b⟩ := e
      rw [rename_cons, put, put, ih]
      simp only [hf.eq_iff]
      split <;> rfl

end Table

/-- Lists of one length without repetitions are images of each other under permutations. -/
theorem exists_map_eq_of_nodup {α : Type} {xs ys : List α} (hx : xs.Nodup) (hy : ys.Nodup)
    (h : ys.length = xs.length) : ∃ π : Equiv.Perm α, ys = xs.map π := by
  let x : Fin xs.length ↪ α := ⟨xs.get, List.nodup_iff_injective_get.1 hx⟩
  let y : Fin xs.length ↪ α :=
    ⟨fun i => ys.get (i.cast h.symm),
      (List.nodup_iff_injective_get.1 hy).comp (Fin.cast_injective _)⟩
  -- the permutations of a type take any such embedding to any other
  have := Equiv.Perm.isMultiplyPretransitive α xs.length
  obtain ⟨π, hπ⟩ := MulAction.exists_smul_eq (Equiv.Perm α) x y
  refine ⟨π, List.ext_get (by simpa using h) fun i hi hi' => ?_⟩
  have hi := congrArg (fun f : Fin xs.length ↪ α => f ⟨i, by simpa using hi'⟩) hπ
  simpa [x, y] using hi.symm

namespace SymbolTable

variable {V : String → String → Prop} {t t' : SymbolTable}

/-- The names of the second table are all different, like those of the first one. -/
theorem Alike.nodup_right (hV : Relator.BiUnique V) (h : Alike V t t') : t'.names.Nodup := by
  have hnames : List.Forall₂ V t.names t'.names :=
    List.forall₂_map_left_iff.2 (List.forall₂_map_right_iff.2 (h.entries.imp fun _ _ he => he.1))
  exact (List.rel_nodup hV hnames).1 h.nodup

/-- A function that takes the names of one of two alike tables to those of the other renames the
table. -/
theorem Alike.eq_rename {f : String → String} (h : Alike V t t')
    (hf : t'.names = t.names.map f) : t' = t.rename f := by
  obtain ⟨entries, -⟩ := h
  induction entries with
  | nil => rfl
  | @cons e e' t t' he _ ih =>
      rw [Table.names, Table.names, List.map_cons, List.map_cons, List.map_cons,
        List.cons.injEq] at hf
      rw [ih hf.2, Table.rename, Table.rename, List.map_cons, ← hf.1, ← he.2.1]

/-- A renaming leaves the names of all but automatic variables alone. -/
theorem Alike.fixed {f : String → String} (h : Alike V t (t.rename f)) :
    ∀ e ∈ t, f e.1 = e.1 ∨ e.2.IsAutomatic :=
  List.forall₂_same.1 ((List.forall₂_map_right_iff.1 h.entries).imp fun _ _ he => he.2.2)

/-- Alike tables are renamings of each other. -/
theorem Alike.exists_rename (h : Alike V t t') (hnodup : t'.names.Nodup) :
    ∃ π : Equiv.Perm String, t' = t.rename π := by
  have hlength : t'.names.length = t.names.length := by
    simpa [Table.names] using h.entries.length_eq.symm
  obtain ⟨π, hπ⟩ := exists_map_eq_of_nodup h.nodup hnodup hlength
  exact ⟨π, h.eq_rename hπ⟩

end SymbolTable

/-! ## Three-address code -/

namespace ThreeAddress

variable (f : String → String)

def Value.rename : Value → Value
  | .constant c => .constant c
  | .var x => .var (f x)

def Instr.rename : Instr → Instr
  | .ret v => .ret (v.rename f)
  | .signExtend src dst => .signExtend (src.rename f) (dst.rename f)
  | .zeroExtend src dst => .zeroExtend (src.rename f) (dst.rename f)
  | .truncate src dst => .truncate (src.rename f) (dst.rename f)
  | .copy src dst => .copy (src.rename f) (dst.rename f)
  | .unary op src dst => .unary op (src.rename f) (dst.rename f)
  | .binary op left right dst => .binary op (left.rename f) (right.rename f) (dst.rename f)
  | .jump target => .jump target
  | .jumpIfZero v target => .jumpIfZero (v.rename f) target
  | .jumpIfNotZero v target => .jumpIfNotZero (v.rename f) target
  | .label name => .label name
  | .call name args dst => .call name (args.map (Value.rename f)) (dst.rename f)

def ExprCode.rename (c : ExprCode) : ExprCode where
  value := c.value.rename f
  type := c.type
  code := c.code.map (Instr.rename f)

def Function.rename (g : Function) : Function where
  name := g.name
  global := g.global
  params := g.params.map f
  body := g.body.map (Instr.rename f)

/-- A top level with other names of variables that are not static. -/
def TopLevel.rename : TopLevel → TopLevel
  | .function g => .function (g.rename f)
  | .static v => .static v

def Program.rename (p : Program) : Program := ⟨p.topLevels.map (TopLevel.rename f)⟩

end ThreeAddress

end IntegerC
