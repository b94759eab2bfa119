import PackedSet.BitSet.Digest
import PackedSet.BitSet.Membership
import Mathlib.Data.List.TFAE
import Mathlib.Data.Nat.Bitwise

/-!
# Comparison by digest

A digest starts with the number of significant words, and each of them follows in four bytes, so
the digest determines the members: sets with the same digest are those that compare equal. As long
as the number of words itself fits into its eight bytes, no digest is the beginning of a different
one.
-/

namespace PackedSet

@[simp] theorem length_littleEndian (count n : Nat) : (littleEndian count n).length = count := by
  rw [littleEndian, List.length_map, List.length_range]

theorem testBit_of_getElem?_littleEndian {count n i : Nat} {b : UInt8}
    (h : (littleEndian count n)[i]? = some b) {k : Nat} (hk : k < 8) :
    n.testBit (8 * i + k) = b.toNat.testBit k := by
  obtain ⟨hi, rfl⟩ := List.getElem?_eq_some_iff.1 h
  simp only [littleEndian, List.getElem_map, List.getElem_range, UInt8.toNat_ofNat']
  rw [Nat.testBit_mod_two_pow, decide_eq_true hk, Bool.true_and, Nat.testBit_shiftRight]

/-- Numbers that fit are told apart by their bytes. -/
theorem littleEndian_inj {count m n : Nat} (hm : m < 2 ^ (8 * count)) (hn : n < 2 ^ (8 * count))
    (h : littleEndian count m = littleEndian count n) : m = n := by
  refine Nat.eq_of_testBit_eq fun j => ?_
  by_cases hj : j < 8 * count
  · have hi : j / 8 < (littleEndian count m).length := by
      rw [length_littleEndian]
      omega
    have hk : j % 8 < 8 := Nat.mod_lt _ (by decide)
    have hm' := List.getElem?_eq_getElem hi
    have hn' : (littleEndian count n)[j / 8]? = some (littleEndian count m)[j / 8] := by
      rw [← h, hm']
    rw [← Nat.div_add_mod j 8, testBit_of_getElem?_littleEndian hm' hk,
      testBit_of_getElem?_littleEndian hn' hk]
  · have hle : 2 ^ (8 * count) ≤ 2 ^ j := Nat.pow_le_pow_right (by decide) (Nat.not_lt.1 hj)
    rw [Nat.testBit_lt_two_pow (hm.trans_le hle), Nat.testBit_lt_two_pow (hn.trans_le hle)]

theorem length_littleEndian_word (w : Word) : (littleEndian 4 w.toNat).length = 4 :=
  length_littleEndian 4 w.toNat

theorem injective_littleEndian_word :
    Function.Injective fun w : Word => littleEndian 4 w.toNat := fun v w h =>
  UInt32.toNat_inj.1 (littleEndian_inj v.toNat_lt w.toNat_lt h)

/-- Blocks of one length are read back from their concatenation. -/
theorem flatMap_inj {α β : Type} {f : α → List β} {width : Nat}
    (hwidth : ∀ a, (f a).length = width) (hf : Function.Injective f) {xs ys : List α}
    (hlength : xs.length = ys.length) (h : xs.flatMap f = ys.flatMap f) : xs = ys := by
  induction xs generalizing ys with
  | nil => exact (List.length_eq_zero_iff.1 hlength.symm).symm
  | cons x xs ih =>
      cases ys with
      | nil => cases hlength
      | cons y ys =>
          rw [List.flatMap_cons, List.flatMap_cons] at h
          obtain ⟨hhead, htail⟩ := List.append_inj h ((hwidth x).trans (hwidth y).symm)
          rw [hf hhead, ih (Nat.succ.inj hlength) htail]

namespace BitSet

variable {a b : BitSet}

theorem length_digest (s : BitSet) : s.digest.length = 8 + 4 * s.extent := by
  have hwords : ∀ words : List Word,
      (words.flatMap fun w => littleEndian 4 w.toNat).length = 4 * words.length := by
    intro words
    induction words with
    | nil => rfl
    | cons w rest ih =>
        rw [List.flatMap_cons, List.length_append, length_littleEndian, ih, List.length_cons]
        omega
  rw [digest, List.length_append, length_littleEndian, hwords, length_significant]

theorem extent_eq_of_digest_eq (h : a.digest = b.digest) : a.extent = b.extent := by
  have hlength := congrArg List.length h
  rw [length_digest, length_digest] at hlength
  omega

theorem digest_eq_iff : a.digest = b.digest ↔ ∀ n, a.contains n = b.contains n := by
  rw [← significant_eq_iff]
  constructor
  · intro h
    have hlength : a.significant.length = b.significant.length := by
      rw [length_significant, length_significant, extent_eq_of_digest_eq h]
    rw [digest, digest, hlength] at h
    exact flatMap_inj length_littleEndian_word injective_littleEndian_word hlength
      (List.append_cancel_left h)
  · intro h
    rw [digest, digest, h]

/-- The count in front of the words tells how long a digest is. -/
theorem digest_eq_of_prefix_digest (ha : a.wordCount < 2 ^ 64) (hb : b.wordCount < 2 ^ 64)
    (h : a.digest <+: b.digest) : a.digest = b.digest := by
  have hcounts : littleEndian 8 a.significant.length <+: b.digest :=
    (List.prefix_append _ _).trans h
  have hfront : littleEndian 8 a.significant.length = littleEndian 8 b.significant.length :=
    (List.prefix_of_prefix_length_le hcounts (List.prefix_append _ _)
      (by rw [length_littleEndian, length_littleEndian])).eq_of_length
      (by rw [length_littleEndian, length_littleEndian])
  rw [length_significant, length_significant] at hfront
  have hextent : a.extent = b.extent :=
    littleEndian_inj (a.extent_le_wordCount.trans_lt ha) (b.extent_le_wordCount.trans_lt hb) hfront
  exact h.eq_of_length (by rw [length_digest, length_digest, hextent])

/-- Two sets have the same members exactly if neither differs from the other, if they compare
equal, and if their digests are the same. The digests of unequal sets, whose word counts are numbers
of 64 bits, are not even beginnings of one another. -/
theorem comparisons_agree (a b : BitSet) :
    [∀ n, a.contains n = b.contains n, a.differs b = false, b.differs a = false,
      a.sameMembers b = true, a.digest = b.digest].TFAE ∧
    (a.wordCount < 2 ^ 64 → b.wordCount < 2 ^ 64 → a.sameMembers b = false →
      ¬ a.digest <+: b.digest ∧ ¬ b.digest <+: a.digest) := by
  constructor
  · tfae_have 1 ↔ 2 := differs_eq_false_iff.symm
    tfae_have 1 ↔ 3 := (forall_congr' fun _ => eq_comm).trans differs_eq_false_iff.symm
    tfae_have 1 ↔ 4 := sameMembers_iff.symm
    tfae_have 1 ↔ 5 := digest_eq_iff.symm
    tfae_finish
  · intro ha hb hne
    have hdigest : a.digest ≠ b.digest := fun h =>
      Bool.false_ne_true (hne.symm.trans (sameMembers_iff.2 (digest_eq_iff.1 h)))
    exact ⟨fun h => hdigest (digest_eq_of_prefix_digest ha hb h),
      fun h => hdigest (digest_eq_of_prefix_digest hb ha h).symm⟩

/-- The significant words of one set are the first ones of the other. -/
theorem comparisons_agree_longer :
    let a : BitSet := ⟨#[5, 0], false⟩
    let b : BitSet := ⟨#[5, 0, 7], true⟩
    a.wordCount < 2 ^ 64 ∧ b.wordCount < 2 ^ 64 ∧ a.sameMembers b = false ∧
      ¬ a.digest <+: b.digest ∧ ¬ b.digest <+: a.digest := by
  intro a b
  have ha : a.wordCount < 2 ^ 64 := by decide
  have hb : b.wordCount < 2 ^ 64 := by decide
  have hne : a.sameMembers b = false := by decide
  exact ⟨ha, hb, hne, (comparisons_agree a b).2 ha hb hne⟩

end BitSet

end PackedSet
