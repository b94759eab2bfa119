import PackedSet.Text.Format
import PackedSet.Proofs.Refinement
import Mathlib.Data.List.TakeWhile

/-!
# The digits of a set

A numeral is put together from the digits of words. Word by word or place by place, it is the same
row of digits: one for each place, highest first, with the leading zeros left out. How many places
are looked at makes no difference as long as no member lies past them; the numeral itself ends at
the greatest member.
-/

namespace PackedSet.Numeral

/-- The digits of the places under `n`, highest first. -/
def digitsBelow (f : Nat → Bool) (n : Nat) : List Char :=
  (List.range n).reverse.map fun i => digit (f i)

/-- Digits without leading zeros, but at least one digit. -/
def trim (ds : List Char) : List Char :=
  if (ds.dropWhile (· == '0')).isEmpty then ['0'] else ds.dropWhile (· == '0')

theorem digitsBelow_succ (f : Nat → Bool) (n : Nat) :
    digitsBelow f (n + 1) = digit (f n) :: digitsBelow f n := by
  rw [digitsBelow, List.range_succ, List.reverse_append]
  rfl

theorem digitsBelow_add (f : Nat → Bool) (m n : Nat) :
    digitsBelow f (m + n) = digitsBelow (fun i => f (m + i)) n ++ digitsBelow f m := by
  rw [digitsBelow, List.range_add, List.reverse_append, List.map_append, ← List.map_reverse,
    List.map_map]
  rfl

theorem trim_digitsBelow_add {f : Nat → Bool} {n : Nat} (h : ∀ i, n ≤ i → f i = false) (k : Nat) :
    trim (digitsBelow f (n + k)) = trim (digitsBelow f n) := by
  induction k with
  | zero => rfl
  | succ k ih =>
      rw [← Nat.add_assoc, digitsBelow_succ, h _ (Nat.le_add_right n k)]
      exact ih

/-- Places past every one do not show. -/
theorem trim_digitsBelow_congr {f : Nat → Bool} {m n : Nat} (hm : ∀ i, m ≤ i → f i = false)
    (hn : ∀ i, n ≤ i → f i = false) : trim (digitsBelow f m) = trim (digitsBelow f n) := by
  rcases Nat.le_total m n with hle | hle
  · rw [← Nat.add_sub_cancel' hle, trim_digitsBelow_add hm]
  · rw [← Nat.add_sub_cancel' hle, trim_digitsBelow_add hn]

/-- A row that starts with a one has no leading zeros. -/
theorem trim_digitsBelow_of_top {f : Nat → Bool} {top : Nat} (h : f top = true) :
    trim (digitsBelow f (top + 1)) = digitsBelow f (top + 1) := by
  rw [digitsBelow_succ, h]
  rfl

variable (s : BitSet)

theorem wordDigits_wordAt (i : Nat) :
    wordDigits (s.wordAt i) =
      digitsBelow (fun j => s.contains (Word.width * i + j)) Word.width := by
  rw [wordDigits, Word.offsets, digitsBelow]
  refine List.map_congr_left fun j hj => ?_
  rw [s.contains_width_mul_add (List.mem_range.1 (List.mem_reverse.1 hj))]

/-- The digits of `k` words are those of their places. -/
theorem flatMap_wordDigits (k : Nat) :
    (List.range k).reverse.flatMap (fun i => wordDigits (s.wordAt i)) =
      digitsBelow s.contains (Word.width * k) := by
  induction k with
  | zero => rfl
  | succ k ih =>
      rw [List.range_succ, List.reverse_append, List.reverse_singleton, List.singleton_append,
        List.flatMap_cons, ih, Nat.mul_succ, digitsBelow_add, wordDigits_wordAt]

theorem wordAt_ne_zero_of_extent_eq {k : Nat} (h : s.extent = k + 1) : s.wordAt k ≠ 0 := by
  intro hzero
  have hle : s.extent ≤ k := s.extent_le_iff.2 fun i hi => by
    rcases Nat.eq_or_lt_of_le hi with rfl | hlt
    · exact hzero
    · exact s.wordAt_of_extent_le (h ▸ hlt)
  omega

theorem dropWhile_wordDigits_ne_nil {w : Word} (h : w ≠ 0) :
    (wordDigits w).dropWhile (· == '0') ≠ [] := by
  rw [Ne, List.dropWhile_eq_nil_iff]
  intro hzeros
  refine h (Word.eq_zero_iff.2 fun i => Bool.eq_false_iff.2 fun hi => ?_)
  have hmem : digit true ∈ wordDigits w := List.mem_map.2
    ⟨i, List.mem_reverse.2 (Word.mem_offsets.2 (Word.lt_width_of_test hi)), congrArg digit hi⟩
  exact Bool.false_ne_true (hzeros _ hmem)

theorem digits_eq_trim : digits s = trim (digitsBelow s.contains (Word.width * s.extent)) := by
  rw [digits, ← flatMap_wordDigits, BitSet.significant_eq, ← List.map_reverse]
  cases h : s.extent with
  | zero => rfl
  | succ k =>
      have htop := dropWhile_wordDigits_ne_nil (wordAt_ne_zero_of_extent_eq s h)
      rw [List.range_succ, List.reverse_append, List.reverse_singleton, List.singleton_append,
        List.map_cons, List.flatMap_cons, trim, List.dropWhile_append,
        if_neg (mt List.isEmpty_iff.1 htop), if_neg, ← List.flatMap_map]
      rw [List.isEmpty_iff, List.append_eq_nil_iff]
      exact fun hnil => htop hnil.1

theorem digits_eq_trim_of_lt {n : Nat} (h : ∀ m ∈ s, m < n) :
    digits s = trim (digitsBelow s.contains n) := by
  rw [digits_eq_trim]
  refine trim_digitsBelow_congr (fun i hi => ?_) fun i hi => ?_
  · have hword : s.extent ≤ wordIndex i := Nat.not_lt.1 fun hlt =>
      Nat.not_lt.2 hi (wordIndex_lt_iff.1 hlt)
    rw [BitSet.contains, s.wordAt_of_extent_le hword, Word.test_zero]
  · exact Bool.eq_false_iff.2 fun hmem => Nat.not_lt.2 hi (h i hmem)

theorem digits_of_isGreatest {top : Nat} (h : IsGreatest {n | n ∈ s} top) :
    digits s = digitsBelow s.contains (top + 1) := by
  rw [digits_eq_trim_of_lt s fun m hm => Nat.lt_succ_of_le (h.2 hm)]
  exact trim_digitsBelow_of_top h.1

theorem exists_isGreatest (h : s.plain.members.Nonempty) : ∃ top, IsGreatest {n | n ∈ s} top := by
  refine ⟨s.plain.members.max' h, s.mem_plain.1 (s.plain.members.max'_mem h), fun n hn => ?_⟩
  exact s.plain.members.le_max' n (s.mem_plain.2 hn)

theorem extent_eq_of_top {top : Nat} (htop : top ∈ s) (hmax : ∀ n ∈ s, n ≤ top) :
    s.extent = wordIndex top + 1 := by
  rw [BitSet.extent_eq]
  apply Nat.le_antisymm
  · rw [wordsOf_le_iff]
    intro n hn
    have hle : wordIndex n ≤ wordIndex top := Nat.div_le_div_right (hmax n (s.mem_plain.1 hn))
    exact wordIndex_lt_iff.1 (Nat.lt_succ_of_le hle)
  · exact wordIndex_lt_iff.2 (wordsOf_le_iff.1 (Nat.le_refl _) top (s.mem_plain.2 htop))

/-- A numeral has a digit for each place up to its top, which is the greatest member, or zero. It
lies in the last significant word, or in the first one. -/
theorem exists_top : ∃ top, digits s = digitsBelow s.contains (top + 1) ∧ (∀ n ∈ s, n ≤ top) ∧
    wordIndex top + 1 = max 1 s.extent := by
  rcases s.plain.members.eq_empty_or_nonempty with hempty | hne
  · have hnone : ∀ n, n ∉ s := fun n hn =>
      Finset.notMem_empty n (hempty ▸ s.mem_plain.2 hn)
    have hzero : s.contains 0 = false := Bool.eq_false_iff.2 (hnone 0)
    refine ⟨0, ?_, fun n hn => absurd hn (hnone n), ?_⟩
    · rw [digits_eq_trim_of_lt s (n := 1) fun m hm => absurd hm (hnone m), digitsBelow_succ, hzero]
      rfl
    · rw [BitSet.extent_eq, hempty]
      rfl
  · obtain ⟨top, htop⟩ := exists_isGreatest s hne
    refine ⟨top, digits_of_isGreatest s htop, htop.2, ?_⟩
    rw [extent_eq_of_top s htop.1 htop.2, Nat.max_eq_right (Nat.succ_pos _)]

end PackedSet.Numeral
