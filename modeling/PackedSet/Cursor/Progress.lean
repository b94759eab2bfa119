import PackedSet.BitSet.Membership
import PackedSet.Cursor.Basic

/-!
# Progress of a cursor

A skip lands behind every zero word, so the look after it finds a member or is not needed: two looks
settle every call. `next?` gives the least member at or after the cursor.
-/

namespace PackedSet.Cursor

variable (c : Cursor)

theorem le_skipZero (count i : Nat) : i ≤ c.skipZero count i := by
  induction count generalizing i with
  | zero => exact Nat.le_refl i
  | succ count ih =>
      rw [skipZero]
      split
      · exact Nat.le_of_succ_le (ih (i + 1))
      · exact Nat.le_refl i

theorem skipZero_le (count i : Nat) : c.skipZero count i ≤ i + count := by
  induction count generalizing i with
  | zero => exact Nat.le_refl i
  | succ count ih =>
      rw [skipZero]
      split
      · have := ih (i + 1)
        omega
      · exact Nat.le_add_right i _

theorem wordAt_of_lt_skipZero {count i j : Nat} (hij : i ≤ j) (hj : j < c.skipZero count i) :
    c.set.wordAt j = 0 := by
  induction count generalizing i with
  | zero => exact absurd hj (Nat.not_lt.2 hij)
  | succ count ih =>
      rw [skipZero] at hj
      split at hj
      · rename_i hz
        rcases Nat.eq_or_lt_of_le hij with rfl | hij
        · exact hz
        · exact ih hij hj
      · exact absurd hj (Nat.not_lt.2 hij)

theorem wordAt_skipZero_ne_zero {count i : Nat} (h : c.skipZero count i < i + count) :
    c.set.wordAt (c.skipZero count i) ≠ 0 := by
  induction count generalizing i with
  | zero => exact absurd h (Nat.lt_irrefl i)
  | succ count ih =>
      rw [skipZero] at h ⊢
      split
      · rename_i hz
        rw [if_pos hz] at h
        exact ih (by omega)
      · assumption

theorem not_mem_of_nextSet?_eq {m : Nat} (hm : c.position ≤ m) (hi : wordIndex m = c.index)
    (h : ∀ j, bitOffset c.position ≤ j → j ≤ bitOffset m →
      Word.test (c.set.wordAt c.index) j = false) : m ∉ c.set := by
  have hp := width_mul_wordIndex_add c.position
  have hm' := width_mul_wordIndex_add m
  have hle : bitOffset c.position ≤ bitOffset m := by
    rw [index] at hi
    rw [← hp, ← hm', hi] at hm
    exact Nat.le_of_add_le_add_left hm
  rw [BitSet.mem_iff, BitSet.contains, hi, h _ hle (Nat.le_refl _)]
  exact Bool.false_ne_true

theorem index_le {m : Nat} (h : c.position ≤ m) : c.index ≤ wordIndex m :=
  Nat.div_le_div_right h

theorem look_eq_found {n : Nat} (h : c.look = .found n) :
    n ∈ c.set ∧ c.position ≤ n ∧ ∀ m, c.position ≤ m → m < n → m ∉ c.set := by
  unfold look at h
  split at h
  · rename_i offset ho
    obtain ⟨ht, hs, hmin⟩ := Word.nextSet?_eq_some_iff.1 ho
    have hw := Word.lt_width_of_test ht
    obtain rfl := Sight.found.inj h
    refine ⟨?_, ?_, fun m hm hlt => ?_⟩
    · rw [BitSet.mem_iff, c.set.contains_width_mul_add hw]
      exact ht
    · rw [← width_mul_wordIndex_add c.position]
      exact Nat.add_le_add_left hs _
    · rw [← width_mul_wordIndex_add m, width_mul_add_lt_iff (bitOffset_lt m),
        wordIndex_width_mul_add hw, bitOffset_width_mul_add hw] at hlt
      obtain ⟨hi, hj⟩ := hlt.resolve_left (Nat.not_lt.2 (c.index_le hm))
      exact c.not_mem_of_nextSet?_eq hm hi fun j hp hle => hmin j hp (Nat.lt_of_le_of_lt hle hj)
  · exact Sight.noConfusion h

theorem look_eq_skip {p : Nat} (h : c.look = .skip p) :
    (∀ m, c.position ≤ m → m < p → m ∉ c.set) ∧
      p = Word.width * c.skipZero (c.set.wordCount - (c.index + 1)) (c.index + 1) := by
  unfold look at h
  split at h
  · exact Sight.noConfusion h
  · rename_i hn
    obtain rfl := Sight.skip.inj h
    refine ⟨fun m hm hlt => ?_, rfl⟩
    rcases Nat.eq_or_lt_of_le (c.index_le hm) with hi | hi
    · exact c.not_mem_of_nextSet?_eq hm hi.symm fun j hp _ => Word.nextSet?_eq_none_iff.1 hn j hp
    · rw [BitSet.mem_iff, BitSet.contains, c.wordAt_of_lt_skipZero hi (wordIndex_lt_iff.2 hlt),
        Word.test_zero]
      exact Bool.false_ne_true

/-- Behind a skip the cursor is at the end or on a word with a member. -/
theorem look_of_skip {p : Nat} (h : c.look = .skip p) (hc : c.position < c.set.capacity) :
    p = c.set.capacity ∨ p < c.set.capacity ∧ ∃ n, look { c with position := p } = .found n := by
  have hi : c.index < c.set.wordCount := wordIndex_lt_iff.2 hc
  obtain ⟨-, rfl⟩ := c.look_eq_skip h
  have hle := c.skipZero_le (c.set.wordCount - (c.index + 1)) (c.index + 1)
  rcases Nat.eq_or_lt_of_le hle with he | hlt
  · left
    rw [he, BitSet.capacity]
    congr 1
    omega
  · right
    refine ⟨Nat.mul_lt_mul_of_pos_left (by omega) (by decide), ?_⟩
    have hne := c.wordAt_skipZero_ne_zero hlt
    obtain ⟨j, hj⟩ := Classical.not_forall.1 fun h => hne (Word.eq_zero_iff.2 h)
    unfold look
    split
    · exact ⟨_, rfl⟩
    · rename_i hn
      refine absurd (Word.nextSet?_eq_none_iff.1 hn j ?_) ?_
      · simp [bitOffset]
      · simpa [index, wordIndex, Nat.mul_div_cancel_left _ (show 0 < Word.width by decide)] using hj

end PackedSet.Cursor
