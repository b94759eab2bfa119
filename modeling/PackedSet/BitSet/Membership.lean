import PackedSet.BitSet.Basic

/-!
# Membership

Sets are seen through `contains` and `wordAt`. Two sets have the same members exactly if they have
the same words, zero words past the end included; `extent` is the least number of words that hold
all members, and comparison by significant words is comparison of members. The list of members is
strictly increasing and as long as the count of ones.
-/

namespace PackedSet.BitSet

variable (s : BitSet)

theorem mem_iff {s : BitSet} {n : Nat} : n ∈ s ↔ s.contains n = true := Iff.rfl

@[simp] theorem wordCount_blank (bits : Nat) (growable : Bool) :
    (blank bits growable).wordCount = wordsFor bits := Array.size_replicate

@[simp] theorem growable_blank (bits : Nat) (growable : Bool) :
    (blank bits growable).growable = growable := rfl

@[simp] theorem wordAt_blank (bits : Nat) (growable : Bool) (i : Nat) :
    (blank bits growable).wordAt i = 0 := by
  simp only [wordAt, blank, Array.getD_eq_getD_getElem?, Array.getElem?_replicate]
  split <;> rfl

@[simp] theorem contains_blank (bits : Nat) (growable : Bool) (n : Nat) :
    (blank bits growable).contains n = false := by simp [contains]

theorem wordAt_of_wordCount_le {i : Nat} (h : s.wordCount ≤ i) : s.wordAt i = 0 := by
  rw [wordAt, Array.getD_eq_getD_getElem?, Array.getElem?_eq_none h, Option.getD_none]

theorem wordAt_eq_getElem {i : Nat} (h : i < s.words.size) : s.wordAt i = s.words[i] := by
  rw [wordAt, Array.getD_eq_getD_getElem?, Array.getElem?_eq_getElem h, Option.getD_some]

theorem contains_of_capacity_le {n : Nat} (h : s.capacity ≤ n) : s.contains n = false := by
  have : s.wordCount ≤ wordIndex n := Nat.not_lt.1 fun hn =>
    Nat.not_lt.2 h (wordIndex_lt_iff.1 hn)
  rw [contains, s.wordAt_of_wordCount_le this, Word.test_zero]

theorem lt_capacity_of_mem {s : BitSet} {n : Nat} (h : n ∈ s) : n < s.capacity := by
  rcases Nat.lt_or_ge n s.capacity with hn | hn
  · exact hn
  · rw [mem_iff, s.contains_of_capacity_le hn] at h
    exact Bool.noConfusion h

theorem contains_width_mul_add {i j : Nat} (h : j < Word.width) :
    s.contains (Word.width * i + j) = Word.test (s.wordAt i) j := by
  rw [contains, wordIndex_width_mul_add h, bitOffset_width_mul_add h]

theorem wordAt_eq_iff {a b : BitSet} :
    (∀ i, a.wordAt i = b.wordAt i) ↔ ∀ n, a.contains n = b.contains n := by
  constructor
  · intro h n
    rw [contains, contains, h]
  · intro h i
    apply Word.ext
    intro j hj
    rw [← contains_width_mul_add a hj, ← contains_width_mul_add b hj, h]

theorem ext_words {a b : BitSet} (hg : a.growable = b.growable) (hw : a.wordCount = b.wordCount)
    (h : ∀ n, a.contains n = b.contains n) : a = b := by
  obtain ⟨words, growable⟩ := a
  obtain ⟨words', growable'⟩ := b
  have : words = words' := Array.ext hw fun i hi hi' => by
    have := wordAt_eq_iff.2 h i
    rwa [wordAt_eq_getElem _ hi, wordAt_eq_getElem _ hi'] at this
  rw [this, show growable = growable' from hg]

theorem reach_le (f : Nat → Word) (n : Nat) : reach f n ≤ n := by
  induction n with
  | zero => exact Nat.le_refl 0
  | succ n ih =>
      rw [reach]
      split
      · exact Nat.le_succ_of_le ih
      · exact Nat.le_refl _

theorem reach_le_iff {f : Nat → Word} {n k : Nat} :
    reach f n ≤ k ↔ ∀ i, k ≤ i → i < n → f i = 0 := by
  induction n with
  | zero => simp [reach]
  | succ n ih =>
      rw [reach]
      split
      · rename_i hz
        rw [ih]
        constructor
        · intro h i hk hi
          rcases Nat.lt_succ_iff_lt_or_eq.1 hi with hi | rfl
          · exact h i hk hi
          · exact hz
        · exact fun h i hk hi => h i hk (Nat.lt_succ_of_lt hi)
      · rename_i hz
        constructor
        · intro h i hk hi
          omega
        · intro h
          refine Nat.succ_le_of_lt (Nat.lt_of_not_le fun hk => hz (h n hk (Nat.lt_succ_self n)))

theorem extent_le_wordCount : s.extent ≤ s.wordCount := reach_le _ _

theorem extent_le_iff {k : Nat} : s.extent ≤ k ↔ ∀ i, k ≤ i → s.wordAt i = 0 := by
  rw [extent, reach_le_iff]
  constructor
  · intro h i hk
    rcases Nat.lt_or_ge i s.wordCount with hi | hi
    · exact h i hk hi
    · exact s.wordAt_of_wordCount_le hi
  · exact fun h i hk _ => h i hk

theorem wordAt_of_extent_le {i : Nat} (h : s.extent ≤ i) : s.wordAt i = 0 :=
  s.extent_le_iff.1 (Nat.le_refl _) i h

theorem extent_congr {a b : BitSet} (h : ∀ i, a.wordAt i = b.wordAt i) : a.extent = b.extent := by
  apply Nat.le_antisymm
  · exact a.extent_le_iff.2 fun i hi => by rw [h, b.wordAt_of_extent_le hi]
  · exact b.extent_le_iff.2 fun i hi => by rw [← h, a.wordAt_of_extent_le hi]

@[simp] theorem length_significant : s.significant.length = s.extent := by
  rw [significant, List.length_take, Array.length_toList]
  exact Nat.min_eq_left s.extent_le_wordCount

theorem significant_eq : s.significant = (List.range s.extent).map s.wordAt := by
  apply List.ext_getElem (by simp)
  intro i hi _
  have hi' : i < s.words.size :=
    Nat.lt_of_lt_of_le (by simpa using hi) s.extent_le_wordCount
  simp only [significant, List.getElem_take, List.getElem_map, List.getElem_range,
    Array.getElem_toList, s.wordAt_eq_getElem hi']

theorem significant_eq_iff {a b : BitSet} :
    a.significant = b.significant ↔ ∀ n, a.contains n = b.contains n := by
  rw [← wordAt_eq_iff]
  constructor
  · intro h i
    have he : a.extent = b.extent := by rw [← a.length_significant, h, b.length_significant]
    rcases Nat.lt_or_ge i a.extent with hi | hi
    · rw [significant_eq, significant_eq, he] at h
      exact List.map_inj_left.1 h i (List.mem_range.2 (he ▸ hi))
    · rw [a.wordAt_of_extent_le hi, b.wordAt_of_extent_le (he ▸ hi)]
  · intro h
    rw [significant_eq, significant_eq, extent_congr h]
    exact List.map_congr_left fun i _ => h i

theorem differs_eq_false_iff {a b : BitSet} :
    a.differs b = false ↔ ∀ n, a.contains n = b.contains n := by
  rw [← significant_eq_iff, differs, bne_eq_false_iff_eq]

theorem sameMembers_iff {a b : BitSet} :
    a.sameMembers b = true ↔ ∀ n, a.contains n = b.contains n := by
  rw [← differs_eq_false_iff, sameMembers, Bool.not_eq_true']

theorem isEmpty_iff : s.isEmpty = true ↔ ∀ n, s.contains n = false := by
  rw [isEmpty, Array.all_eq_true]
  constructor
  · intro h n
    rcases Nat.lt_or_ge (wordIndex n) s.words.size with hi | hi
    · have := h _ hi
      rw [beq_iff_eq, ← s.wordAt_eq_getElem hi] at this
      rw [contains, this, Word.test_zero]
    · rw [contains, s.wordAt_of_wordCount_le hi, Word.test_zero]
  · intro h i hi
    rw [beq_iff_eq, ← s.wordAt_eq_getElem hi]
    exact Word.ext fun j hj => by rw [← s.contains_width_mul_add hj, h, Word.test_zero]

@[simp] theorem mem_toList {n : Nat} : n ∈ s.toList ↔ n ∈ s := by
  rw [toList, List.mem_filter, List.mem_range]
  exact ⟨fun h => h.2, fun h => ⟨lt_capacity_of_mem h, h⟩⟩

theorem pairwise_toList : s.toList.Pairwise (· < ·) := List.pairwise_lt_range.filter _

theorem nodup_toList : s.toList.Nodup := s.pairwise_toList.imp Nat.ne_of_lt

theorem toList_words : s.words.toList = (List.range s.wordCount).map s.wordAt := by
  apply List.ext_getElem (by simp [wordCount])
  intro i hi _
  simp only [List.getElem_map, List.getElem_range, Array.getElem_toList]
  exact (s.wordAt_eq_getElem (by simpa using hi)).symm

theorem size_eq_foldl :
    s.size = (List.range s.wordCount).foldl (fun total i => total + Word.ones (s.wordAt i)) 0 := by
  rw [size, ← Array.foldl_toList, toList_words, List.foldl_map]

theorem countP_range_contains (k : Nat) :
    (List.range (Word.width * k)).countP s.contains =
      (List.range k).foldl (fun total i => total + Word.ones (s.wordAt i)) 0 := by
  induction k with
  | zero => rfl
  | succ k ih =>
      have hword : (List.range Word.width).countP (fun j => s.contains (Word.width * k + j)) =
          Word.ones (s.wordAt k) :=
        List.countP_congr fun j hj => by rw [s.contains_width_mul_add (List.mem_range.1 hj)]
      rw [Nat.mul_succ, List.range_add, List.countP_append, ih, List.countP_map, List.range_succ,
        List.foldl_append, List.foldl_cons, List.foldl_nil, ← hword]
      rfl

theorem size_eq_length_toList : s.size = s.toList.length := by
  rw [size_eq_foldl, ← countP_range_contains, toList, ← List.countP_eq_length_filter]
  rfl

end PackedSet.BitSet
