import PackedSet.BitSet.Update

/-!
# First-fit allocation

`allocate` puts in the least position that is free and hands it out. When every position is taken,
a growable set grows by at least one word and hands out its old capacity; a fixed set has nothing
to give.
-/

namespace PackedSet.BitSet

def firstFree? (s : BitSet) : Option Nat :=
  (s.words.findIdx? (· != Word.full)).map fun i => Word.width * i + Word.lowestClear (s.wordAt i)

def allocate (s : BitSet) : Outcome (Option Nat) :=
  match s.firstFree? with
  | some n => ⟨some n, s.mark n, []⟩
  | none =>
      if s.growable then
        let grown := s.grow (s.wordCount + 1)
        ⟨some s.capacity, grown.set.mark s.capacity, grown.events⟩
      else ⟨none, s, []⟩

def allocateMany (s : BitSet) : Nat → Outcome (List (Option Nat))
  | 0 => ⟨[], s, []⟩
  | count + 1 =>
      let first := s.allocate
      let later := allocateMany first.set count
      ⟨first.result :: later.result, later.set, first.events ++ later.events⟩

theorem firstFree?_eq_none_iff (s : BitSet) :
    s.firstFree? = none ↔ ∀ n, n < s.capacity → n ∈ s := by
  rw [firstFree?, Option.map_eq_none_iff, Array.findIdx?_eq_none_iff]
  constructor
  · intro h n hn
    have hi : wordIndex n < s.words.size := wordIndex_lt_iff.2 hn
    have := h _ (Array.getElem_mem hi)
    rw [bne_eq_false_iff_eq, ← s.wordAt_eq_getElem hi] at this
    rw [mem_iff, contains, this, Word.test_full (bitOffset_lt n)]
  · intro h w hw
    obtain ⟨i, hi, rfl⟩ := Array.getElem_of_mem hw
    rw [bne_eq_false_iff_eq, ← s.wordAt_eq_getElem hi]
    refine Word.ext fun j hj => ?_
    rw [← s.contains_width_mul_add hj, Word.test_full hj]
    exact h _ (Nat.lt_of_lt_of_le (Nat.add_lt_add_left hj _) (Nat.mul_le_mul_left _ hi))

theorem firstFree?_eq_some_iff (s : BitSet) {n : Nat} :
    s.firstFree? = some n ↔ n < s.capacity ∧ n ∉ s ∧ ∀ m, m < n → m ∈ s := by
  have hleast : ∀ {n}, s.firstFree? = some n →
      n < s.capacity ∧ n ∉ s ∧ ∀ m, m < n → m ∈ s := by
    intro n h
    obtain ⟨i, hi, rfl⟩ := Option.map_eq_some_iff.1 h
    obtain ⟨hlt, hne, hfull⟩ := Array.findIdx?_eq_some_iff_getElem.1 hi
    rw [bne_iff_ne, ← s.wordAt_eq_getElem hlt] at hne
    have hclear := Word.lowestClear_lt hne
    refine ⟨Nat.lt_of_lt_of_le (Nat.add_lt_add_left hclear _) (Nat.mul_le_mul_left _ hlt), ?_, ?_⟩
    · rw [mem_iff, s.contains_width_mul_add hclear, Word.test_lowestClear hne]
      exact Bool.false_ne_true
    · intro m hm
      have hm' := (width_mul_wordIndex_add m).symm ▸ hm
      rw [width_mul_add_lt_iff (bitOffset_lt m), wordIndex_width_mul_add hclear,
        bitOffset_width_mul_add hclear] at hm'
      rcases hm' with hj | ⟨hj, ho⟩
      · have := hfull _ hj
        rw [Bool.not_eq_true, bne_eq_false_iff_eq,
          ← s.wordAt_eq_getElem (Nat.lt_trans hj hlt)] at this
        rw [mem_iff, contains, this, Word.test_full (bitOffset_lt m)]
      · rw [mem_iff, contains, hj]
        exact Word.test_of_lt_lowestClear hne ho
  constructor
  · exact hleast
  · rintro ⟨hn, hfree, hmin⟩
    cases hf : s.firstFree? with
    | none => exact absurd ((s.firstFree?_eq_none_iff).1 hf n hn) hfree
    | some m =>
        obtain ⟨-, hm, hmin'⟩ := hleast hf
        rcases Nat.lt_trichotomy m n with hlt | rfl | hlt
        · exact absurd (hmin m hlt) hm
        · rfl
        · exact absurd (hmin' n hlt) hfree

end PackedSet.BitSet
