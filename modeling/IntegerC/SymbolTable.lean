import IntegerC.CType

set_option autoImplicit false

/-! # Symbol tables

What is known about each name of a program: its type, and whether it is an automatic variable, an
object with static storage, or a function. The table keeps the order in which names came in, which
is the order in which static variables are laid out; a new entry for a known name takes its place.
-/

namespace IntegerC

/-! ## Ordered tables -/

/-- Entries under names, in the order in which the names came in. -/
abbrev Table (α : Type) := List (String × α)

namespace Table

variable {α : Type}

def find? (t : Table α) (name : String) : Option α :=
  match t with
  | [] => none
  | (n, a) :: rest => if n = name then some a else find? rest name

/-- Gives a name an entry, in the place of the name if it has one and at the end otherwise. -/
def put (t : Table α) (name : String) (a : α) : Table α :=
  match t with
  | [] => [(name, a)]
  | (n, b) :: rest => if n = name then (n, a) :: rest else (n, b) :: put rest name a

def names (t : Table α) : List String := t.map Prod.fst

@[simp] theorem find?_nil (name : String) : find? ([] : Table α) name = none := rfl

theorem find?_cons (n : String) (a : α) (t : Table α) (name : String) :
    find? ((n, a) :: t) name = if n = name then some a else find? t name := rfl

@[simp] theorem find?_put_self (t : Table α) (name : String) (a : α) :
    find? (put t name a) name = some a := by
  induction t with
  | nil => simp [put, find?]
  | cons e rest ih =>
      obtain ⟨n, b⟩ := e
      by_cases h : n = name <;> simp [put, find?, h, ih]

/-- Putting a name changes no other name. -/
theorem find?_put_of_ne (t : Table α) {name other : String} (a : α) (h : other ≠ name) :
    find? (put t name a) other = find? t other := by
  induction t with
  | nil => simp [put, find?, Ne.symm h]
  | cons e rest ih =>
      obtain ⟨n, b⟩ := e
      by_cases hn : n = name
      · subst hn; simp [put, find?, Ne.symm h]
      · simp [put, find?, hn, ih]

theorem find?_eq_none_iff (t : Table α) (name : String) :
    find? t name = none ↔ name ∉ names t := by
  induction t with
  | nil => simp [names]
  | cons e rest ih =>
      obtain ⟨n, b⟩ := e
      simp only [names] at ih
      by_cases h : n = name
      · simp [find?, names, h]
      · simp [find?, names, h, ih, Ne.symm h]

/-- A new name comes last, and a known one keeps its place. -/
theorem names_put (t : Table α) (name : String) (a : α) :
    names (put t name a) = if name ∈ names t then names t else names t ++ [name] := by
  induction t with
  | nil => simp [put, names]
  | cons e rest ih =>
      obtain ⟨n, b⟩ := e
      by_cases h : n = name
      · subst h; simp [put, names]
      · have hm : (name ∈ names ((n, b) :: rest)) ↔ name ∈ names rest := by
          simp [names, Ne.symm h]
        have e : names ((n, b) :: put rest name a) = n :: names (put rest name a) := rfl
        simp only [put, h, if_false, e, ih, hm]
        split <;> rfl

/-- Names without repetitions stay so. -/
theorem nodup_put {t : Table α} (h : t.names.Nodup) (x : String) (a : α) :
    (t.put x a).names.Nodup := by
  rw [names_put]
  split
  · exact h
  · rename_i hx
    exact List.nodup_append.2 ⟨h, by simp, fun y hy z hz e => hx (by simp_all)⟩

/-- What is found under a name is in the table under that name. -/
theorem mem_of_find?_eq_some {t : Table α} {x : String} {a : α} (h : t.find? x = some a) :
    (x, a) ∈ t := by
  induction t with
  | nil => cases h
  | cons e t ih =>
      obtain ⟨n, b⟩ := e
      rw [find?_cons] at h
      split at h
      · rename_i hn
        cases h
        exact hn ▸ List.mem_cons_self
      · exact List.mem_cons_of_mem _ (ih h)

/-- A new name comes last. -/
theorem put_of_not_mem {t : Table α} {x : String} (h : x ∉ t.names) (a : α) :
    t.put x a = t ++ [(x, a)] := by
  induction t with
  | nil => rfl
  | cons e t ih =>
      obtain ⟨n, b⟩ := e
      rw [names, List.map_cons, List.mem_cons, not_or] at h
      rw [put, if_neg (Ne.symm h.1), ih h.2, List.cons_append]

/-- A name is looked up in the front table first. -/
theorem find?_append (t u : Table α) (name : String) :
    find? (t ++ u) name = (find? t name).or (find? u name) := by
  induction t with
  | nil => rfl
  | cons e rest ih =>
      obtain ⟨n, b⟩ := e
      rw [List.cons_append, find?_cons, find?_cons, ih]
      split <;> rfl

end Table

/-! ## Entries -/

/-- The initial value of an object with static storage. A tentative definition stands for zero unless
another declaration gives a value; without an initial value the object is defined elsewhere. -/
inductive InitialValue where
  | tentative
  | initial (value : Constant)
  | absent
deriving Repr, DecidableEq

/-- What kind of thing a name stands for; `global` tells whether other units can see it. -/
inductive Attributes where
  | automatic
  | static (init : InitialValue) (global : Bool)
  | function (defined global : Bool)
deriving Repr, DecidableEq

structure Symbol where
  type : CType
  attributes : Attributes
deriving Repr, DecidableEq

abbrev SymbolTable := Table Symbol

def Symbol.automatic (t : IntType) : Symbol := ⟨.integer t, .automatic⟩

end IntegerC
