import Mathlib.Data.Nat.Bitwise
import ByteRegex.Search.RowId

/-! The parts of a row's name. The place and the three bits of the word are independent of each other
and determine the word. -/

namespace ByteRegex

namespace RowId

variable {r r' : RowId} {place : Nat}

theorem and_pos_iff {word mask : UInt32} {k : Nat} (single : mask.toNat = 1 <<< k) :
    word &&& mask > 0 ↔ word.toNat.testBit k = true := by
  rw [Nat.one_shiftLeft] at single
  rw [gt_iff_lt, UInt32.lt_iff_toNat_lt, UInt32.toNat_and, single, Nat.and_two_pow]
  cases word.toNat.testBit k
  · exact iff_of_false (by simp) (by simp)
  · rw [Bool.toNat_true, Nat.one_mul]
    exact iff_of_true (Nat.two_pow_pos k) rfl

theorem isUnknown_eq (r : RowId) : r.isUnknown = r.word.toNat.testBit 31 := by
  rw [Bool.eq_iff_iff, isUnknown, decide_eq_true_iff, and_pos_iff (show _ = 1 <<< 31 from rfl)]

theorem dead_eq (r : RowId) : r.dead = r.word.toNat.testBit 30 := by
  rw [Bool.eq_iff_iff, dead, decide_eq_true_iff, and_pos_iff (show _ = 1 <<< 30 from rfl)]

theorem accepting_eq (r : RowId) : r.accepting = r.word.toNat.testBit 29 := by
  rw [Bool.eq_iff_iff, accepting, decide_eq_true_iff, and_pos_iff (show _ = 1 <<< 29 from rfl)]

theorem place_eq (r : RowId) : r.place = r.word.toNat % 0x20000000 :=
  Nat.and_two_pow_sub_one_eq_mod r.word.toNat 29

theorem testBit_place (r : RowId) (k : Nat) :
    r.place.testBit k = (decide (k < 29) && r.word.toNat.testBit k) := by
  rw [place_eq, show 0x20000000 = 2 ^ 29 from rfl, Nat.testBit_mod_two_pow]

theorem eq_of_parts (place : r.place = r'.place) (unknown : r.isUnknown = r'.isUnknown)
    (dead : r.dead = r'.dead) (accepting : r.accepting = r'.accepting) : r = r' := by
  obtain ⟨word⟩ := r
  obtain ⟨word'⟩ := r'
  rw [mk.injEq, ← UInt32.toNat_inj]
  refine Nat.eq_of_testBit_eq fun k => ?_
  rw [isUnknown_eq, isUnknown_eq] at unknown
  rw [dead_eq, dead_eq] at dead
  rw [accepting_eq, accepting_eq] at accepting
  have low := congrArg (·.testBit k) place
  simp only [testBit_place] at low
  obtain below | rfl | rfl | rfl | above : k < 29 ∨ k = 29 ∨ k = 30 ∨ k = 31 ∨ 32 ≤ k := by omega
  · simpa [below] using low
  · exact accepting
  · exact dead
  · exact unknown
  · have outside (w : UInt32) : w.toNat.testBit k = false :=
      Nat.testBit_lt_two_pow (Nat.lt_of_lt_of_le w.toNat_lt (Nat.pow_le_pow_right Nat.two_pos above))
    rw [outside, outside]

/-- The parts of the name of a row that is known. -/
structure Parts (r : RowId) (place : Nat) (dead accepting : Bool) : Prop where
  place_eq : r.place = place
  unknown_eq : r.isUnknown = false
  dead_eq : r.dead = dead
  accepting_eq : r.accepting = accepting

theorem parts_ofEmpty : ofEmpty.Parts 0 true false :=
  ⟨by decide, by decide, by decide, by decide⟩

theorem ofPlace_eq_none_iff : ofPlace place = none ↔ greatestPlace < place := by
  simp [ofPlace]

theorem parts_ofPlace (made : ofPlace place = some r) : r.Parts place false false := by
  rw [ofPlace, Option.ite_none_left_eq_some, Option.some.injEq] at made
  obtain ⟨fits, rfl⟩ := made
  have small : place < 2 ^ 29 := Nat.lt_succ_of_le (Nat.le_of_not_lt fits)
  have value : place.toUInt32.toNat = place :=
    Nat.mod_eq_of_lt (Nat.lt_trans small (Nat.pow_lt_pow_right (by decide) (by decide)))
  have clear {k : Nat} (above : 29 ≤ k) : place.testBit k = false :=
    Nat.testBit_lt_two_pow (Nat.lt_of_lt_of_le small (Nat.pow_le_pow_right Nat.two_pos above))
  refine ⟨?_, ?_, ?_, ?_⟩
  · rw [place_eq, value]
    exact Nat.mod_eq_of_lt small
  · rw [isUnknown_eq, value, clear (by decide)]
  · rw [dead_eq, value, clear (by decide)]
  · rw [accepting_eq, value, clear (by decide)]

theorem testBit_toAccepting (r : RowId) (k : Nat) :
    r.toAccepting.word.toNat.testBit k = (r.word.toNat.testBit k || decide (29 = k)) := by
  rw [toAccepting, UInt32.toNat_or, Nat.testBit_or, show acceptingBit.toNat = 2 ^ 29 from rfl,
    Nat.testBit_two_pow]

theorem Parts.toAccepting {dead : Bool} (h : r.Parts place dead false) :
    r.toAccepting.Parts place dead true := by
  obtain ⟨rfl, unknown, rfl, -⟩ := h
  refine ⟨Nat.eq_of_testBit_eq fun k => ?_, ?_, ?_, ?_⟩
  · rw [testBit_place, testBit_place, testBit_toAccepting]
    by_cases below : k < 29
    · simp [below, Nat.ne_of_gt below]
    · simp [below]
  · rw [← unknown]
    simp [isUnknown_eq, testBit_toAccepting]
  · simp [RowId.dead_eq, testBit_toAccepting]
  · simp [RowId.accepting_eq, testBit_toAccepting]

theorem Parts.mark {dead : Bool} (h : r.Parts place dead false) (accepting : Bool) :
    (if accepting then r.toAccepting else r).Parts place dead accepting := by
  cases accepting with
  | false => exact h
  | true => exact h.toAccepting

theorem Parts.row_eq {k : Nat} {dead accepting : Bool} (h : r.Parts (256 * k) dead accepting) :
    r.row = k := by
  rw [row, h.place_eq, Nat.mul_div_cancel_left k (by decide)]

end RowId

end ByteRegex
