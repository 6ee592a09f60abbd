import IntegerC.Machine.Layout
import IntegerC.Proofs.Ensures

set_option autoImplicit false

/-! # Slots of a frame

A frame that was laid out for some operands has a slot for each variable among them that is not
static, and a slot that was given stays where it is. No two slots overlap.
-/

namespace IntegerC.Machine.Layout

variable {s : Symbols} {l l' l'' : Layout}

/-! ## Slots stay -/

/-- A frame with the slots of `l`, and perhaps with others. -/
def Extends (l l' : Layout) : Prop := ∀ x d, l.slots.find? x = some d → l'.slots.find? x = some d

theorem Extends.refl (l : Layout) : l.Extends l := fun _ _ h => h

theorem Extends.trans (h : l.Extends l') (h' : l'.Extends l'') : l.Extends l'' :=
  fun x d hd => h' x d (h x d hd)

/-- A pushed slot is new, so no slot before it moves. -/
theorem extends_push {x : String} (h : l.slots.find? x = none) (w : Width) :
    l.Extends (l.push x w) := by
  intro y d hd
  have hne : y ≠ x := by
    rintro rfl
    rw [h] at hd
    cases hd
  exact (Table.find?_put_of_ne _ _ hne).trans hd

/-! ## Every variable has a place -/

/-- A static variable, or one with a slot. -/
def HasPlace (s : Symbols) (l : Layout) (x : String) : Prop :=
  ∃ w isStatic, s.find? x = some (.object w isStatic) ∧
    (isStatic = false → ∃ d, l.slots.find? x = some d)

theorem HasPlace.mono (h : l.Extends l') {x : String} (hx : l.HasPlace s x) : l'.HasPlace s x := by
  obtain ⟨w, isStatic, hfind, hslot⟩ := hx
  exact ⟨w, isStatic, hfind, fun hs => (hslot hs).imp fun d => h x d⟩

/-- A slot, once reserved, is there in every later frame. -/
theorem reserve_hasPlace (l : Layout) (a : Operand) :
    Answers (l.reserve s a)
      (fun l' => l.Extends l' ∧ ∀ x, a = .pseudo x → l'.HasPlace s x) := by
  cases a with
  | pseudo x =>
      rw [reserve]
      split
      · rename_i w isStatic hfind
        split
        · rename_i h
          refine .pure ⟨.refl l, ?_⟩
          rintro y ⟨⟩
          refine ⟨w, isStatic, hfind, fun hs => Option.isSome_iff_exists.1 ?_⟩
          simpa [hs] using h
        · rename_i h
          simp only [Bool.or_eq_true, not_or, Option.not_isSome_iff_eq_none] at h
          refine .pure ⟨extends_push h.2 w, ?_⟩
          rintro y ⟨⟩
          exact ⟨w, isStatic, hfind, fun _ => ⟨_, Table.find?_put_self ..⟩⟩
      · exact .error trivial
  | _ => exact .pure ⟨.refl l, fun x h => by cases h⟩

theorem reserveAll_hasPlace (operands : List Operand) :
    ∀ l : Layout, Answers (l.reserveAll s operands)
      (fun l' => l.Extends l' ∧ ∀ x, .pseudo x ∈ operands → l'.HasPlace s x) := by
  induction operands with
  | nil => exact fun l => .pure ⟨.refl l, by simp⟩
  | cons a as ih =>
      intro l
      rw [reserveAll]
      refine (l.reserve_hasPlace a).bind fun l₁ ⟨h₁, ha⟩ => (ih l₁).imp fun l₂ ⟨h₂, has⟩ => ?_
      refine ⟨h₁.trans h₂, fun x hx => ?_⟩
      rcases List.mem_cons.1 hx with e | hx
      · exact (ha x e.symm).mono h₂
      · exact has x hx

/-- A variable that is put into the data section is static. -/
theorem HasPlace.static {x : String} (h : l.HasPlace s x) (hx : l.place (.pseudo x) = .data x) :
    ∃ w, s.find? x = some (.object w true) := by
  obtain ⟨w, isStatic, hfind, hslot⟩ := h
  cases isStatic with
  | true => exact ⟨w, hfind⟩
  | false =>
      obtain ⟨d, hd⟩ := hslot rfl
      rw [place, hd] at hx
      cases hx

/-! ## New slots -/

theorem find?_push (l : Layout) (x : String) (w : Width) (y : String) :
    (l.push x w).slots.find? y = if y = x then some (l.push x w).used else l.slots.find? y := by
  split
  · rename_i h
    subst h
    exact Table.find?_put_self ..
  · rename_i h
    exact Table.find?_put_of_ne _ _ h

section

variable {p : Layout → Prop}
  (hpush : ∀ l x w, p l → s.find? x = some (.object w false) → p (l.push x w))

include hpush

/-- What holds of a frame and of every frame with one more slot holds after a reservation. -/
theorem reserve_keeps (a : Operand) (h : p l) : Answers (l.reserve s a) p := by
  cases a with
  | pseudo x =>
      rw [reserve]
      split
      · rename_i w isStatic hfind
        split
        · exact .pure h
        · rename_i hnew
          simp only [Bool.or_eq_true, not_or, Bool.not_eq_true] at hnew
          rw [hnew.1] at hfind
          exact .pure (hpush l x w h hfind)
      · exact .error trivial
  | _ => exact .pure h

/-- What is kept when a variable that is not static gets a slot holds of every frame. -/
theorem reserveAll_keeps (operands : List Operand) :
    ∀ l : Layout, p l → Answers (l.reserveAll s operands) p := by
  induction operands with
  | nil => exact fun l h => .pure h
  | cons a as ih =>
      intro l h
      rw [reserveAll]
      exact (reserve_keeps hpush a h).bind fun l₁ h₁ => ih l₁ h₁

end

/-! ## Slots are apart -/

theorem dvd_alignUp (n a : Nat) : a ∣ alignUp n a := Nat.dvd_mul_left ..

theorem le_alignUp (n : Nat) {a : Nat} (ha : 0 < a) : n ≤ alignUp n a := by
  have hdiv := Nat.div_add_mod (n + a - 1) a
  have hmod := Nat.mod_lt (n + a - 1) ha
  unfold alignUp
  rw [Nat.mul_comm]
  omega

/-- Each slot belongs to a variable that is not static and lies between the base and the end of the
slots, and no two slots overlap. -/
structure Apart (s : Symbols) (l : Layout) : Prop where
  within : ∀ x d, l.slots.find? x = some d →
    ∃ w, s.find? x = some (.object w false) ∧ w.size ≤ d ∧ d ≤ l.used
  apart : ∀ x y d e w v, l.slots.find? x = some d → l.slots.find? y = some e → x ≠ y →
    s.find? x = some (.object w false) → s.find? y = some (.object v false) →
      d + v.size ≤ e ∨ e + w.size ≤ d

theorem apart_empty : Apart s empty := ⟨nofun, nofun⟩

/-- A new slot lies below all others. -/
theorem Apart.push (h : Apart s l) {x : String} {w : Width}
    (hx : s.find? x = some (.object w false)) :
    Apart s (l.push x w) := by
  have hpos : 0 < w.size := by
    cases w <;> decide
  -- the new slot is deeper than all the others, by its own size at least
  have hdepth : l.used + w.size ≤ (l.push x w).used := le_alignUp _ hpos
  have hfind : ∀ y d, (l.push x w).slots.find? y = some d →
      (y = x ∧ d = (l.push x w).used) ∨ (y ≠ x ∧ l.slots.find? y = some d) := by
    intro y d hy
    rw [find?_push] at hy
    split at hy
    · rename_i e
      exact .inl ⟨e, (Option.some.inj hy).symm⟩
    · rename_i e
      exact .inr ⟨e, hy⟩
  refine ⟨fun y d hy => ?_, fun y z d e v u hy hz hne hv hu => ?_⟩
  · rcases hfind y d hy with ⟨rfl, rfl⟩ | ⟨-, hy⟩
    · exact ⟨w, hx, by omega, Nat.le_refl _⟩
    · obtain ⟨v, hv, hlow, hhigh⟩ := h.within y d hy
      exact ⟨v, hv, hlow, by omega⟩
  · rcases hfind y d hy with ⟨rfl, rfl⟩ | ⟨-, hy'⟩ <;>
      rcases hfind z e hz with ⟨rfl, rfl⟩ | ⟨-, hz'⟩
    · exact absurd rfl hne
    · obtain ⟨-, -, -, hhigh⟩ := h.within z e hz'
      cases hx.symm.trans hv
      omega
    · obtain ⟨-, -, -, hhigh⟩ := h.within y d hy'
      cases hx.symm.trans hu
      omega
    · exact h.apart y z d e v u hy' hz' hne hv hu

theorem reserveAll_apart (operands : List Operand) (l : Layout) (h : Apart s l) :
    Answers (l.reserveAll s operands) (Apart s) :=
  reserveAll_keeps (fun _ _ _ h hx => h.push hx) operands l h

theorem ofInstrs_apart (instrs : List Instr) : Answers (ofInstrs s instrs) (Apart s) :=
  reserveAll_apart _ _ apart_empty

/-- Variables are placed in the frame that was laid out for the instructions. -/
theorem placeVariables_layout (s : Symbols) (instrs : List Instr) :
    Answers (placeVariables s instrs)
      (fun out => ∃ l, ofInstrs s instrs = .ok l ∧ out = l.apply instrs) :=
  (Ensures.self (ofInstrs s instrs)).bind fun l hl => .pure ⟨l, hl, rfl⟩

end IntegerC.Machine.Layout
