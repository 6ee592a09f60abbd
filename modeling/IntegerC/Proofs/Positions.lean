import Mathlib.Data.List.Induction
import IntegerC.Position

set_option autoImplicit false

/-! # Lines and columns by counting

The line of an offset is one more than the number of line feeds before it, and its column is one
more than its distance from the last of them. Both are counted in the UTF-16 code units of the text,
where an offset may also stand between the two halves of a character.
-/

namespace IntegerC

namespace Text

/-! ## Code units -/

/-- The code unit of a line feed. -/
def feed : Nat := 10

/-- The UTF-16 code units of a character: its code point, or above U+FFFF a pair of surrogates. -/
def encode (c : Char) : List Nat :=
  if c.toNat < 0x10000 then [c.toNat]
  else [0xD800 + (c.toNat - 0x10000) / 0x400, 0xDC00 + (c.toNat - 0x10000) % 0x400]

def codeUnits (cs : List Char) : List Nat := cs.flatMap encode

/-- Places count units of the encoding, where a character has one or two. -/
theorem length_codeUnits (cs : List Char) : (codeUnits cs).length = unitsOf cs := by
  induction cs with
  | nil => rfl
  | cons c cs ih =>
      have hlength : (encode c).length = units c := by
        unfold encode units
        split <;> rfl
      rw [codeUnits, List.flatMap_cons, List.length_append, hlength, unitsOf_cons]
      exact congrArg (units c + ·) ih

/-- No other character has the code unit of a line feed in it. -/
theorem feed_notMem_encode {c : Char} (h : c ≠ '\n') : feed ∉ encode c := by
  have hc : c.toNat ≠ 10 := fun e => h (Char.toNat_inj.1 e)
  unfold encode feed
  split <;> simp <;> omega

/-- How far the end of a text is from the last line feed in it, or from its start if it has none. -/
def sinceFeed (us : List Nat) : Nat := (us.reverse.takeWhile (· ≠ feed)).length

theorem sinceFeed_append_feed (us : List Nat) : sinceFeed (us ++ [feed]) = 0 := by
  simp [sinceFeed]

/-- Without a line feed in what is appended, the column grows by its length. -/
theorem sinceFeed_append {vs : List Nat} (h : feed ∉ vs) (us : List Nat) :
    sinceFeed (us ++ vs) = sinceFeed us + vs.length := by
  have hall : ∀ v ∈ vs.reverse, decide (v ≠ feed) = true := by
    intro v hv
    simp only [ne_eq, decide_eq_true_eq]
    rintro rfl
    exact h (List.mem_reverse.1 hv)
  rw [sinceFeed, List.reverse_append, List.takeWhile_append_of_pos hall]
  simp [sinceFeed, Nat.add_comm]

end Text

open Text

/-! ## Line starts -/

/-- The offsets behind the line feeds of a text that begins at `offset`, from its code units. -/
def startsBehind (offset : Nat) : List Nat → List Nat
  | [] => []
  | u :: us =>
      if u = feed then (offset + 1) :: startsBehind (offset + 1) us
      else startsBehind (offset + 1) us

/-- The lines that begin behind a stretch are found stretch by stretch. -/
theorem startsBehind_append (offset : Nat) (us vs : List Nat) :
    startsBehind offset (us ++ vs) =
      startsBehind offset us ++ startsBehind (offset + us.length) vs := by
  induction us generalizing offset with
  | nil => rfl
  | cons u us ih =>
      rw [List.cons_append, startsBehind, startsBehind, ih, List.length_cons,
        show offset + 1 + us.length = offset + (us.length + 1) by omega]
      split <;> rfl

theorem startsBehind_of_notMem {us : List Nat} (h : feed ∉ us) (offset : Nat) :
    startsBehind offset us = [] := by
  induction us generalizing offset with
  | nil => rfl
  | cons u us ih =>
      rw [List.mem_cons, not_or] at h
      rw [startsBehind, if_neg fun e => h.1 e.symm, ih h.2]

/-- The table of the lines is that of the code units. -/
theorem lineStartsFrom_eq (offset : Nat) (cs : List Char) :
    lineStartsFrom offset cs = startsBehind offset (codeUnits cs) := by
  induction cs generalizing offset with
  | nil => rfl
  | cons c cs ih =>
      have hlength : (encode c).length = units c := by simpa [codeUnits] using length_codeUnits [c]
      rw [codeUnits, List.flatMap_cons, startsBehind_append, hlength, lineStartsFrom]
      rw [ih]
      split
      · rename_i h
        subst h
        rfl
      · rename_i h
        rw [startsBehind_of_notMem (feed_notMem_encode h), List.nil_append]
        rfl

/-- There is one more line for each line feed. -/
theorem length_startsBehind (offset : Nat) (us : List Nat) :
    (startsBehind offset us).length = us.count feed := by
  induction us generalizing offset with
  | nil => rfl
  | cons u us ih =>
      rw [startsBehind]
      split
      · rename_i h
        rw [List.length_cons, ih, h, List.count_cons_self]
      · rename_i h
        rw [ih, List.count_cons_of_ne h]

/-- A line that starts behind a position starts within the units that follow it. -/
theorem mem_startsBehind {offset start : Nat} {us : List Nat} (h : start ∈ startsBehind offset us) :
    offset < start ∧ start ≤ offset + us.length := by
  induction us generalizing offset with
  | nil => cases h
  | cons u us ih =>
      rw [List.length_cons]
      rw [startsBehind] at h
      split at h
      · rcases List.mem_cons.1 h with rfl | h
        · omega
        · have := ih h
          omega
      · have := ih h
        omega

/-- From the start of the last line it is as far to the end as from the last line feed. -/
theorem getLastD_startsBehind (offset : Nat) (us : List Nat) :
    (startsBehind offset us).getLastD offset + sinceFeed us = offset + us.length := by
  induction us using List.reverseRecOn with
  | nil => rfl
  | append_singleton us u ih =>
      rw [startsBehind_append, List.length_append, List.length_singleton]
      by_cases h : u = feed
      · subst h
        rw [sinceFeed_append_feed]
        simp [startsBehind]
        omega
      · have hnot : feed ∉ [u] := fun hmem => h (List.mem_singleton.1 hmem).symm
        rw [startsBehind_of_notMem hnot, List.append_nil, sinceFeed_append hnot,
          List.length_singleton]
        omega

namespace LineMap

variable {m : LineMap}

/-- Bisection finds the last line that starts in time, if all lines up to it do. -/
theorem bisect_eq {offset lo hi line : Nat} (hlo : lo ≤ line) (hhi : line ≤ hi)
    (hbefore : ∀ i ≤ line, m.starts.getD i 0 ≤ offset)
    (hbehind : ∀ i, line < i → i ≤ hi → offset < m.starts.getD i 0) :
    m.bisect offset lo hi = line := by
  fun_induction m.bisect offset lo hi with
  | case1 lo hi hlt mid hmid ih =>
      have hle : mid ≤ line := by
        by_contra hgt
        have := hbehind mid (by omega) (by omega)
        omega
      exact ih hle hhi hbehind
  | case2 lo hi hlt mid hmid ih =>
      have hgt : line < mid := by
        by_contra hle
        exact hmid (hbefore mid (by omega))
      exact ih hlo (by omega) fun i hi hi' => hbehind i hi (by omega)
  | case3 lo hi hge => omega

/-- Where some lines start in time and the others too late, bisection finds the last one in time. -/
theorem bisect_append {xs ys : List Nat} {offset : Nat} (hm : m.starts = (xs ++ ys).toArray)
    (hne : xs ≠ []) (hxs : ∀ x ∈ xs, x ≤ offset) (hys : ∀ y ∈ ys, offset < y) :
    m.bisect offset 0 (m.starts.size - 1) = xs.length - 1 := by
  have hpos := List.length_pos_iff.2 hne
  have hsize : m.starts.size = xs.length + ys.length := by simp [hm]
  refine bisect_eq (Nat.zero_le _) (by omega) (fun i hi => ?_) fun i hi hi' => ?_
  · have hlt : i < xs.length := by omega
    have hget : m.starts.getD i 0 = xs[i] := by
      simp [hm, Array.getD_eq_getD_getElem?, List.getElem?_append_left hlt, hlt]
    rw [hget]
    exact hxs _ (List.getElem_mem hlt)
  · have hlt : i - xs.length < ys.length := by omega
    have hget : m.starts.getD i 0 = ys[i - xs.length] := by
      simp [hm, Array.getD_eq_getD_getElem?,
        List.getElem?_append_right (show xs.length ≤ i by omega), hlt]
    rw [hget]
    exact hys _ (List.getElem_mem hlt)

/-! ## Places -/

/-- The place of an offset that has the code units `us` before it and `vs` behind it: the lines of
the one part start in time, those of the other one too late. -/
theorem position_of_append {text : List Char} {offset : Int} {us vs : List Nat}
    (h : codeUnits text = us ++ vs) (hclamp : (ofChars text).clamp offset = us.length) :
    (ofChars text).position offset = ⟨us.count feed + 1, sinceFeed us + 1, us.length⟩ := by
  have hstarts : (ofChars text).starts =
      ((0 :: startsBehind 0 us) ++ startsBehind us.length vs).toArray := by
    rw [ofChars, lineStartsFrom_eq, h, startsBehind_append, Nat.zero_add, List.cons_append]
  have hbefore : ∀ start ∈ 0 :: startsBehind 0 us, start ≤ us.length := by
    refine List.forall_mem_cons.2 ⟨Nat.zero_le _, fun start hmem => ?_⟩
    have hbound := mem_startsBehind hmem
    omega
  have hline : (ofChars text).bisect us.length 0 ((ofChars text).starts.size - 1) =
      us.count feed := by
    rw [bisect_append hstarts (List.cons_ne_nil _ _) hbefore
      fun start hmem => (mem_startsBehind hmem).1, List.length_cons, length_startsBehind]
    rfl
  have hlast : (0 :: startsBehind 0 us)[us.count feed]? =
      some ((startsBehind 0 us).getLastD 0) := by
    rw [List.getLastD_eq_getLast?, ← List.getLast?_cons, List.getLast?_eq_getElem?,
      List.length_cons, length_startsBehind]
    rfl
  have hstart : (ofChars text).starts.getD (us.count feed) 0 = (startsBehind 0 us).getLastD 0 := by
    rw [hstarts, Array.getD_eq_getD_getElem?, List.getElem?_toArray,
      List.getElem?_append_left (List.getElem?_eq_some_iff.1 hlast).1, hlast]
    rfl
  have hcolumn := getLastD_startsBehind 0 us
  rw [position, hclamp, hline, hstart]
  congr 2
  omega

theorem size_ofChars (text : List Char) : (ofChars text).size = (codeUnits text).length :=
  (length_codeUnits text).symm

/-- The place of an offset is found by counting in the text before it. -/
theorem position_eq (text : List Char) (offset : Int) :
    (ofChars text).position offset =
      let inside := (ofChars text).clamp offset
      let before := (codeUnits text).take inside
      ⟨before.count feed + 1, sinceFeed before + 1, inside⟩ := by
  have hlength : ((codeUnits text).take ((ofChars text).clamp offset)).length =
      (ofChars text).clamp offset := by
    rw [List.length_take, clamp, size_ofChars]
    omega
  rw [position_of_append (List.take_append_drop _ (codeUnits text)).symm hlength.symm, hlength]

end LineMap

/-! ## Order -/

/-- The place `p` stands on an earlier line than `q`, or on the same line further to the left. -/
def Position.Precedes (p q : Position) : Prop :=
  p.line < q.line ∨ p.line = q.line ∧ p.column < q.column

theorem Position.Precedes.ne {p q : Position} (h : p.Precedes q) :
    ¬ (p.line = q.line ∧ p.column = q.column) := by
  unfold Precedes at h
  omega

theorem Position.Precedes.not_precedes {p q : Position} (h : p.Precedes q) : ¬ q.Precedes p := by
  unfold Precedes at h ⊢
  omega

theorem Position.not_precedes_self (p : Position) : ¬ p.Precedes p := fun h => h.ne ⟨rfl, rfl⟩

/-- A longer text has more line feeds, or its end is further from the last one. -/
theorem counts_append_lt (us : List Nat) {vs : List Nat} (h : vs ≠ []) :
    us.count feed < (us ++ vs).count feed ∨
      us.count feed = (us ++ vs).count feed ∧ sinceFeed us < sinceFeed (us ++ vs) := by
  rw [List.count_append]
  by_cases hmem : feed ∈ vs
  · have hpos := List.count_pos_iff.2 hmem
    exact .inl (by omega)
  · have hlength := List.length_pos_iff.2 h
    rw [List.count_eq_zero.2 hmem, sinceFeed_append hmem]
    exact .inr ⟨rfl, by omega⟩

/-- What stands before an offset goes on up to a later one. -/
theorem exists_take_eq_append {us : List Nat} {i j : Nat} (hij : i < j) (hj : j ≤ us.length) :
    ∃ vs, vs ≠ [] ∧ us.take j = us.take i ++ vs := by
  refine ⟨(us.drop i).take (j - i), ?_, ?_⟩
  · rw [← List.length_pos_iff, List.length_take, List.length_drop]
    omega
  · rw [← List.take_add, Nat.add_sub_cancel' (Nat.le_of_lt hij)]

namespace LineMap

variable {text : List Char} {offset offset' : Int}

/-- Places are in the order of their offsets. -/
theorem precedes_of_lt
    (h : ((ofChars text).position offset).offset < ((ofChars text).position offset').offset) :
    ((ofChars text).position offset).Precedes ((ofChars text).position offset') := by
  have hlt : (ofChars text).clamp offset < (ofChars text).clamp offset' := h
  have hinside : (ofChars text).clamp offset' ≤ (codeUnits text).length := by
    rw [clamp, size_ofChars]
    omega
  obtain ⟨vs, hne, htake⟩ := exists_take_eq_append hlt hinside
  have hcounts := counts_append_lt ((codeUnits text).take ((ofChars text).clamp offset)) hne
  rw [← htake] at hcounts
  rw [position_eq, position_eq]
  exact hcounts.imp Nat.succ_lt_succ fun hsame =>
    ⟨congrArg Nat.succ hsame.1, Nat.succ_lt_succ hsame.2⟩

/-- The place of an offset is found by counting in the text before it, and places are in the order
of their offsets. -/
theorem position_counts (text : List Char) :
    (∀ offset : Int,
      let p := (ofChars text).position offset
      let before := (codeUnits text).take p.offset
      (p.offset : Int) = max 0 (min offset (codeUnits text).length) ∧
        p.line = 1 + before.count feed ∧ p.column = 1 + sinceFeed before) ∧
    ∀ offset offset' : Int,
      let p := (ofChars text).position offset
      let q := (ofChars text).position offset'
      (p.offset < q.offset ↔ p.Precedes q) ∧
        ((p.line, p.column) = (q.line, q.column) ↔ p.offset = q.offset) := by
  refine ⟨fun offset => ?_, fun offset offset' => ?_⟩
  · rw [position_eq]
    refine ⟨?_, Nat.add_comm _ _, Nat.add_comm _ _⟩
    dsimp only
    rw [clamp, size_ofChars]
    omega
  · intro p q
    -- positions are in order by their offsets, so each case is decided by comparing these
    have hlt : p.offset < q.offset → p.Precedes q := precedes_of_lt
    have hgt : q.offset < p.offset → q.Precedes p := precedes_of_lt
    have heq : p.offset = q.offset → p = q := by
      intro h
      simp only [p, q, position_eq] at h ⊢
      rw [h]
    refine ⟨⟨hlt, fun h => ?_⟩, fun h => ?_, fun h => by rw [heq h]⟩
    · rcases Nat.lt_trichotomy p.offset q.offset with hoffset | hoffset | hoffset
      · exact hoffset
      · exact absurd (heq hoffset ▸ h) q.not_precedes_self
      · exact absurd h (hgt hoffset).not_precedes
    · obtain ⟨hline, hcolumn⟩ := Prod.mk.inj h
      by_contra hne
      rcases Nat.lt_or_gt_of_ne hne with hoffset | hoffset
      · exact (hlt hoffset).ne ⟨hline, hcolumn⟩
      · exact (hgt hoffset).ne ⟨hline.symm, hcolumn.symm⟩

end LineMap

end IntegerC
