/-!
# Powers of two

`leastPowerOfTwo n` is the least power of two at or above `n`. Sizes of growing sets are rounded
up to it, so each growth at least doubles the size that the previous one left. The power with the
exponent `k` is written `1 <<< k`.
-/

namespace PackedSet

def leastPowerOfTwo (n : Nat) : Nat :=
  if n ≤ 1 then 1 else 1 <<< ((n - 1).log2 + 1)

theorem exists_leastPowerOfTwo_eq (n : Nat) : ∃ k, leastPowerOfTwo n = 1 <<< k := by
  unfold leastPowerOfTwo
  split
  · exact ⟨0, rfl⟩
  · exact ⟨_, rfl⟩

theorem le_leastPowerOfTwo (n : Nat) : n ≤ leastPowerOfTwo n := by
  unfold leastPowerOfTwo
  split
  · assumption
  · rw [Nat.one_shiftLeft]
    have := Nat.lt_log2_self (n := n - 1)
    omega

theorem leastPowerOfTwo_le {n k : Nat} (h : n ≤ 1 <<< k) : leastPowerOfTwo n ≤ 1 <<< k := by
  rw [Nat.one_shiftLeft] at h ⊢
  unfold leastPowerOfTwo
  split
  · exact Nat.one_le_two_pow
  · rw [Nat.one_shiftLeft]
    apply Nat.pow_le_pow_right (by decide)
    exact (Nat.log2_lt (by omega)).2 (by omega)

theorem leastPowerOfTwo_mono {m n : Nat} (h : m ≤ n) : leastPowerOfTwo m ≤ leastPowerOfTwo n := by
  obtain ⟨k, hk⟩ := exists_leastPowerOfTwo_eq n
  rw [hk]
  apply leastPowerOfTwo_le
  rw [← hk]
  exact Nat.le_trans h (le_leastPowerOfTwo n)

end PackedSet
