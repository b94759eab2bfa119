/-!
# Words of a packed set

A word packs `width` neighbouring positions into one machine integer, and `test w i` says whether
the offset `i` is in it. A position splits into the index of its word and its offset there.
The lemmas give every operation by its effect on `test`.
-/

namespace PackedSet

abbrev Word := UInt32

namespace Word

def width : Nat := 32

def offsets : List Nat := List.range width

def full : Word := 0xFFFFFFFF

def test (w : Word) (i : Nat) : Bool := w.toBitVec.getLsbD i

/-- The word of one offset. The offset is below `width`. -/
def single (i : Nat) : Word := 1 <<< UInt32.ofNat i

/-- The word of the offsets under `n`. The bound is below `width`. -/
def below (n : Nat) : Word := single n - 1

def insert (w : Word) (i : Nat) : Word := w ||| single i

def erase (w : Word) (i : Nat) : Word := w &&& ~~~single i

def ones (w : Word) : Nat := offsets.countP (test w)

def onesFrom (w : Word) (start : Nat) : Nat :=
  offsets.countP fun i => decide (start ≤ i) && test w i

def nextSet? (w : Word) (start : Nat) : Option Nat :=
  offsets.find? fun i => decide (start ≤ i) && test w i

/-- The least offset missing from `w`, or `width` for the full word. -/
def lowestClear (w : Word) : Nat := (offsets.find? fun i => !test w i).getD width

@[simp] theorem mem_offsets {i : Nat} : i ∈ offsets ↔ i < width := List.mem_range

theorem test_of_width_le {w : Word} {i : Nat} (h : width ≤ i) : test w i = false :=
  BitVec.getLsbD_of_ge _ _ h

theorem lt_width_of_test {w : Word} {i : Nat} (h : test w i = true) : i < width := by
  rcases Nat.lt_or_ge i width with hi | hi
  · exact hi
  · simp [test_of_width_le hi] at h

theorem ext {a b : Word} (h : ∀ i, i < width → test a i = test b i) : a = b :=
  UInt32.toBitVec_inj.1 (BitVec.eq_of_getLsbD_eq h)

@[simp] theorem test_zero (i : Nat) : test 0 i = false := by simp [test]

@[simp] theorem test_and (a b : Word) (i : Nat) : test (a &&& b) i = (test a i && test b i) := by
  simp [test]

@[simp] theorem test_or (a b : Word) (i : Nat) : test (a ||| b) i = (test a i || test b i) := by
  simp [test]

theorem test_full {i : Nat} (h : i < width) : test full i = true := by
  have : full.toBitVec = BitVec.allOnes 32 := by decide
  rw [test, this, BitVec.getLsbD_allOnes]
  exact decide_eq_true h

theorem toNat_single {i : Nat} (h : i < width) : (single i).toNat = 1 <<< i := by
  have h32 : i < 32 := h
  rw [Nat.one_shiftLeft]
  have hp : 2 ^ i < 2 ^ 32 := Nat.pow_lt_pow_right (by decide) h32
  rw [single, UInt32.toNat_shiftLeft, UInt32.toNat_ofNat', UInt32.toNat_one, Nat.shiftLeft_eq,
    Nat.mod_eq_of_lt (by omega : i < 2 ^ 32), Nat.mod_eq_of_lt h32, Nat.one_mul,
    Nat.mod_eq_of_lt hp]

theorem test_eq_testBit (w : Word) (i : Nat) : test w i = w.toNat.testBit i := rfl

theorem test_single {i : Nat} (h : i < width) (j : Nat) : test (single i) j = decide (i = j) := by
  rw [test_eq_testBit, toNat_single h, Nat.one_shiftLeft, Nat.testBit_two_pow]

theorem test_insert {i : Nat} (h : i < width) (w : Word) (j : Nat) :
    test (insert w i) j = (decide (i = j) || test w j) := by
  rw [insert, test_or, test_single h, Bool.or_comm]

theorem test_erase {i : Nat} (h : i < width) (w : Word) (j : Nat) :
    test (erase w i) j = (!decide (i = j) && test w j) := by
  rcases Nat.lt_or_ge j width with hj | hj
  · have : test (~~~single i) j = !decide (i = j) := by
      rw [← test_single h]
      simp [test, show j < 32 from hj]
    rw [erase, test_and, this, Bool.and_comm]
  · simp [test_of_width_le hj]

theorem test_below {n : Nat} (h : n < width) (i : Nat) : test (below n) i = decide (i < n) := by
  have hp : 1 ≤ 2 ^ n := Nat.one_le_two_pow
  have hle : (1 : Word) ≤ single n := by
    rw [UInt32.le_iff_toNat_le, toNat_single h, Nat.one_shiftLeft]
    exact hp
  rw [test_eq_testBit, below, UInt32.toNat_sub_of_le _ _ hle, toNat_single h, UInt32.toNat_one,
    Nat.one_shiftLeft, Nat.testBit_two_pow_sub_one]

theorem eq_zero_iff {w : Word} : w = 0 ↔ ∀ i, test w i = false := by
  constructor
  · rintro rfl i
    exact test_zero i
  · intro h
    exact ext fun i _ => by rw [h, test_zero]

theorem ne_full_iff {w : Word} : w ≠ full ↔ ∃ i, i < width ∧ test w i = false := by
  constructor
  · intro h
    refine Classical.byContradiction fun hn => h (ext fun i hi => ?_)
    rw [test_full hi]
    exact Bool.of_not_eq_false fun ht => hn ⟨i, hi, ht⟩
  · rintro ⟨i, hi, ht⟩ rfl
    rw [test_full hi] at ht
    exact Bool.noConfusion ht

theorem nextSet?_eq_some_iff {w : Word} {start i : Nat} :
    nextSet? w start = some i ↔
      test w i = true ∧ start ≤ i ∧ ∀ j, start ≤ j → j < i → test w j = false := by
  rw [nextSet?, offsets, List.find?_range_eq_some]
  constructor
  · rintro ⟨hp, -, hmin⟩
    simp only [Bool.and_eq_true, decide_eq_true_eq] at hp
    refine ⟨hp.2, hp.1, fun j hj hji => ?_⟩
    simpa [hj] using hmin j hji
  · rintro ⟨ht, hs, hmin⟩
    refine ⟨by simp [hs, ht], List.mem_range.2 (lt_width_of_test ht), fun j hji => ?_⟩
    rcases Nat.lt_or_ge j start with hj | hj
    · simp [Nat.not_le.2 hj]
    · simp [hmin j hj hji]

theorem nextSet?_eq_none_iff {w : Word} {start : Nat} :
    nextSet? w start = none ↔ ∀ i, start ≤ i → test w i = false := by
  rw [nextSet?, List.find?_eq_none]
  constructor
  · intro h i hi
    rcases Nat.lt_or_ge i width with hw | hw
    · simpa [hi] using h i (mem_offsets.2 hw)
    · exact test_of_width_le hw
  · intro h i _
    by_cases hi : start ≤ i
    · simp [h i hi]
    · simp [hi]

theorem find?_clear {w : Word} (h : w ≠ full) :
    offsets.find? (fun i => !test w i) = some (lowestClear w) := by
  obtain ⟨i, hi, ht⟩ := ne_full_iff.1 h
  cases hf : offsets.find? fun i => !test w i with
  | none =>
      have := List.find?_eq_none.1 hf i (mem_offsets.2 hi)
      simp [ht] at this
  | some n => rw [lowestClear, hf, Option.getD_some]

theorem lowestClear_lt {w : Word} (h : w ≠ full) : lowestClear w < width :=
  mem_offsets.1 (List.mem_of_find?_eq_some (find?_clear h))

theorem test_lowestClear {w : Word} (h : w ≠ full) : test w (lowestClear w) = false := by
  simpa using List.find?_some (find?_clear h)

theorem test_of_lt_lowestClear {w : Word} (h : w ≠ full) {i : Nat} (hi : i < lowestClear w) :
    test w i = true := by
  simpa using (List.find?_range_eq_some.1 (find?_clear h)).2.2 i hi

end Word

def wordIndex (n : Nat) : Nat := n / Word.width

def bitOffset (n : Nat) : Nat := n % Word.width

def wordsFor (bits : Nat) : Nat := (bits + (Word.width - 1)) / Word.width

theorem bitOffset_lt (n : Nat) : bitOffset n < Word.width := Nat.mod_lt _ (by decide)

theorem width_mul_wordIndex_add (n : Nat) : Word.width * wordIndex n + bitOffset n = n :=
  Nat.div_add_mod n Word.width

theorem wordIndex_lt_iff {n count : Nat} : wordIndex n < count ↔ n < Word.width * count := by
  rw [wordIndex, Nat.div_lt_iff_lt_mul (by decide), Nat.mul_comm]

theorem wordIndex_width_mul_add {i j : Nat} (h : j < Word.width) :
    wordIndex (Word.width * i + j) = i := by
  rw [wordIndex, Nat.mul_add_div (by decide), Nat.div_eq_of_lt h, Nat.add_zero]

theorem bitOffset_width_mul_add {i j : Nat} (h : j < Word.width) :
    bitOffset (Word.width * i + j) = j := by
  rw [bitOffset, Nat.mul_add_mod, Nat.mod_eq_of_lt h]

theorem bitOffset_eq_iff {m n : Nat} (h : wordIndex m = wordIndex n) :
    bitOffset m = bitOffset n ↔ m = n := by
  constructor
  · intro ho
    rw [← width_mul_wordIndex_add m, h, ho, width_mul_wordIndex_add]
  · rintro rfl
    rfl

theorem width_mul_add_lt_iff {i j n : Nat} (h : j < Word.width) :
    Word.width * i + j < n ↔ i < wordIndex n ∨ i = wordIndex n ∧ j < bitOffset n := by
  have hn := width_mul_wordIndex_add n
  have ho := bitOffset_lt n
  simp only [Word.width] at *
  omega

end PackedSet
