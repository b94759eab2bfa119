import PackedSet.Word
import Mathlib.Data.List.Find

/-!
# Shifted words

A shift to the right moves the offsets of a word down. So a test of one offset and the next member
at or after an offset are read off the low end of a shifted word, and the members from the offset on
are those that it has.
-/

namespace PackedSet.Word

theorem test_shiftRight {w : Word} {amount : Nat} (h : amount < width) (i : Nat) :
    test (w >>> UInt32.ofNat amount) i = test w (amount + i) := by
  have h32 : amount < 32 := h
  rw [test_eq_testBit, UInt32.toNat_shiftRight, UInt32.toNat_ofNat',
    Nat.mod_eq_of_lt (by omega : amount < 2 ^ 32), Nat.mod_eq_of_lt h32, Nat.testBit_shiftRight,
    test_eq_testBit]

/-- A test of the lowest offset. -/
theorem and_one_bne_zero (w : Word) : (w &&& 1 != 0) = test w 0 := by
  have hone : ∀ i, test (single 0) i = decide (0 = i) := test_single (by decide)
  have hword : (1 : Word) = single 0 := by decide
  rw [hword, Bool.eq_iff_iff, bne_iff_ne, ne_eq, eq_zero_iff]
  constructor
  · intro h
    refine Bool.of_not_eq_false fun hw => h fun i => ?_
    rw [test_and, hone]
    by_cases hi : 0 = i
    · rw [← hi, hw, Bool.false_and]
    · rw [decide_eq_false hi, Bool.and_false]
  · intro hw h
    have h0 := h 0
    rw [test_and, hone, hw] at h0
    cases h0

theorem shifted_bne_zero {amount : Nat} (h : amount < width) (w : Word) :
    ((w >>> UInt32.ofNat amount) &&& 1 != 0) = test w amount := by
  rw [and_one_bne_zero, test_shiftRight h, Nat.add_zero]

/-- The number of offsets under the least one of a word, or `width` for the zero word. -/
def trailingZeros (w : Word) : Nat := (offsets.find? (test w)).getD width

theorem trailingZeros_not (w : Word) : trailingZeros (~~~w) = lowestClear w := by
  have hnot : ∀ i ∈ offsets, test (~~~w) i = !test w i := by
    intro i hi
    have hlt : i < 32 := mem_offsets.1 hi
    simp [test, hlt]
  rw [trailingZeros, lowestClear, List.find?_congr hnot]

theorem trailingZeros_spec {w : Word} (h : w ≠ 0) :
    test w (trailingZeros w) = true ∧ ∀ i, i < trailingZeros w → test w i = false := by
  have hfind : nextSet? w 0 = offsets.find? (test w) :=
    List.find?_congr fun i _ => by rw [decide_eq_true (Nat.zero_le i), Bool.true_and]
  cases hn : nextSet? w 0 with
  | none =>
      have hnone := nextSet?_eq_none_iff.1 hn
      exact absurd (eq_zero_iff.2 fun i => hnone i (Nat.zero_le i)) h
  | some n =>
      obtain ⟨ht, -, hmin⟩ := nextSet?_eq_some_iff.1 hn
      rw [trailingZeros, ← hfind, hn, Option.getD_some]
      exact ⟨ht, fun i hi => hmin i (Nat.zero_le i) hi⟩

/-- The first member at or after an offset, found from the low end of the shifted word. -/
theorem nextSet?_eq_shiftRight {start : Nat} (h : start < width) (w : Word) :
    nextSet? w start = if w >>> UInt32.ofNat start = 0 then none
      else some (start + trailingZeros (w >>> UInt32.ofNat start)) := by
  have hshift := test_shiftRight (w := w) h
  by_cases hz : w >>> UInt32.ofNat start = 0
  · rw [if_pos hz, nextSet?_eq_none_iff]
    intro i hi
    rw [← Nat.add_sub_of_le hi, ← hshift, hz, test_zero]
  · rw [if_neg hz, nextSet?_eq_some_iff, ← hshift]
    obtain ⟨ht, hmin⟩ := trailingZeros_spec hz
    refine ⟨ht, Nat.le_add_right _ _, fun j hj hlt => ?_⟩
    rw [← Nat.add_sub_of_le hj, ← hshift]
    exact hmin _ (by omega)

theorem ones_le_width (w : Word) : ones w ≤ width := by
  have hle := List.countP_le_length (p := test w) (l := offsets)
  rwa [offsets, List.length_range] at hle

theorem onesFrom_eq_countP {start : Nat} (h : start ≤ width) (w : Word) :
    onesFrom w start = (List.range (width - start)).countP fun i => test w (start + i) := by
  have hwidth : start + (width - start) = width := Nat.add_sub_of_le h
  have hfront : (List.range start).countP (fun i => decide (start ≤ i) && test w i) = 0 := by
    refine List.countP_eq_zero.2 fun i hi => ?_
    simp [List.mem_range.1 hi]
  rw [onesFrom, offsets, ← hwidth, List.range_add, List.countP_append, hfront, Nat.zero_add,
    List.countP_map, hwidth]
  refine List.countP_congr fun i _ => ?_
  simp

/-- The zeros that a shift lets in at the high end do not count. -/
theorem ones_shiftRight_eq_countP {amount : Nat} (h : amount < width) (w : Word) :
    ones (w >>> UInt32.ofNat amount) =
      (List.range (width - amount)).countP fun i => test w (amount + i) := by
  have hwidth : width = (width - amount) + amount := by omega
  have hback : (List.range amount).countP
      (test (w >>> UInt32.ofNat amount) ∘ (width - amount + ·)) = 0 := by
    refine List.countP_eq_zero.2 fun i _ => ?_
    rw [Function.comp_apply, test_shiftRight h, test_of_width_le (by omega)]
    exact Bool.false_ne_true
  rw [ones, offsets, hwidth, List.range_add, List.countP_append, List.countP_map, ← hwidth, hback]
  exact List.countP_congr fun i _ => by rw [test_shiftRight h]

theorem onesFrom_eq_ones_shiftRight {start : Nat} (h : start < width) (w : Word) :
    onesFrom w start = ones (w >>> UInt32.ofNat start) := by
  rw [onesFrom_eq_countP (Nat.le_of_lt h), ones_shiftRight_eq_countP h]

end PackedSet.Word
