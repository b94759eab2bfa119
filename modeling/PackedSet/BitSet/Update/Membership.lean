import PackedSet.BitSet.Update

/-!
# Members after an update

What each change of single positions does to `contains`, to the word count and to growability.
-/

namespace PackedSet.BitSet

variable (s : BitSet)

@[simp] theorem growable_modifyWord (i : Nat) (f : Word → Word) :
    (s.modifyWord i f).growable = s.growable := rfl

@[simp] theorem wordCount_modifyWord (i : Nat) (f : Word → Word) :
    (s.modifyWord i f).wordCount = s.wordCount := Array.size_modify

theorem wordAt_modifyWord {i : Nat} (h : i < s.wordCount) (f : Word → Word) (j : Nat) :
    (s.modifyWord i f).wordAt j = if i = j then f (s.wordAt j) else s.wordAt j := by
  have h' : i < s.words.size := h
  simp only [wordAt, modifyWord, Array.getD_eq_getD_getElem?, Array.getElem?_modify]
  split
  · rename_i hij
    subst hij
    rw [Array.getElem?_eq_getElem h']
    rfl
  · rfl

@[simp] theorem growable_mark (n : Nat) : (s.mark n).growable = s.growable := rfl

@[simp] theorem wordCount_mark (n : Nat) : (s.mark n).wordCount = s.wordCount :=
  s.wordCount_modifyWord _ _

@[simp] theorem growable_unmark (n : Nat) : (s.unmark n).growable = s.growable := rfl

@[simp] theorem wordCount_unmark (n : Nat) : (s.unmark n).wordCount = s.wordCount :=
  s.wordCount_modifyWord _ _

theorem contains_mark {n : Nat} (h : n < s.capacity) (m : Nat) :
    (s.mark n).contains m = (decide (n = m) || s.contains m) := by
  rw [contains, mark, wordAt_modifyWord s (wordIndex_lt_iff.2 h)]
  split
  · rename_i hi
    rw [Word.test_insert (bitOffset_lt n), decide_eq_decide.2 (bitOffset_eq_iff hi)]
    rfl
  · rename_i hi
    have : n ≠ m := fun hn => hi (hn ▸ rfl)
    simp [contains, this]

theorem contains_unmark {n : Nat} (h : n < s.capacity) (m : Nat) :
    (s.unmark n).contains m = (!decide (n = m) && s.contains m) := by
  rw [contains, unmark, wordAt_modifyWord s (wordIndex_lt_iff.2 h)]
  split
  · rename_i hi
    rw [Word.test_erase (bitOffset_lt n), decide_eq_decide.2 (bitOffset_eq_iff hi)]
    rfl
  · rename_i hi
    have : n ≠ m := fun hn => hi (hn ▸ rfl)
    simp [contains, this]

@[simp] theorem wordCount_clear : s.clear.wordCount = s.wordCount := Array.size_map ..

@[simp] theorem contains_clear (n : Nat) : s.clear.contains n = false := by
  have : s.clear.wordAt (wordIndex n) = 0 := by
    simp only [wordAt, clear, Array.getD_eq_getD_getElem?, Array.getElem?_map]
    cases s.words[wordIndex n]? <;> rfl
  rw [contains, this, Word.test_zero]

theorem test_filledWord (n i : Nat) (w : Word) {j : Nat} (h : j < Word.width) :
    Word.test (filledWord n i w) j = (decide (Word.width * i + j < n) || Word.test w j) := by
  rw [decide_eq_decide.2 (width_mul_add_lt_iff h), filledWord]
  split
  · rename_i hi
    rw [Word.test_full h, decide_eq_true (Or.inl hi), Bool.true_or]
  · rename_i hi
    split
    · rename_i he
      rw [Word.test_or, Word.test_below (bitOffset_lt n), Bool.or_comm]
      congr 1
      exact decide_eq_decide.2 ⟨fun h => .inr ⟨he, h⟩, fun h => (h.resolve_left hi).2⟩
    · rename_i he
      rw [decide_eq_false fun h => h.elim hi fun h => he h.1, Bool.false_or]

theorem fill_of_le {n : Nat} (h : n ≤ s.capacity) :
    s.fill n = .done { s with words := s.words.mapIdx (filledWord n) } :=
  if_neg (Nat.not_lt.2 h)

theorem fill_of_capacity_lt {n : Nat} (h : s.capacity < n) :
    s.fill n = s.misuse (.outOfRange .fill n s.capacity) := if_pos h

@[simp] theorem wordCount_fill (n : Nat) : (s.fill n).set.wordCount = s.wordCount := by
  unfold fill
  split
  · rfl
  · exact Array.size_mapIdx

theorem contains_fill {n : Nat} (h : n ≤ s.capacity) (m : Nat) :
    (s.fill n).set.contains m = (decide (m < n) || s.contains m) := by
  rw [fill_of_le s h, contains]
  rcases Nat.lt_or_ge m s.capacity with hm | hm
  · have hi : wordIndex m < s.words.size := wordIndex_lt_iff.2 hm
    have : (Outcome.done (ε := Fault)
        { s with words := s.words.mapIdx (filledWord n) }).set.wordAt (wordIndex m) =
        filledWord n (wordIndex m) (s.wordAt (wordIndex m)) := by
      simp only [Outcome.done, wordAt, Array.getD_eq_getD_getElem?, Array.getElem?_mapIdx,
        Array.getElem?_eq_getElem hi, Option.map_some, Option.getD_some]
    rw [this, test_filledWord _ _ _ (bitOffset_lt m), width_mul_wordIndex_add]
    rfl
  · have hc : (s.fill n).set.capacity = s.capacity := by rw [capacity, wordCount_fill, capacity]
    rw [fill_of_le s h] at hc
    have := (Outcome.done (ε := Fault)
        { s with words := s.words.mapIdx (filledWord n) }).set.contains_of_capacity_le (hc ▸ hm)
    rw [contains] at this
    rw [this, s.contains_of_capacity_le hm, decide_eq_false (by omega)]
    rfl

theorem insert_of_lt {n : Nat} (h : n < s.capacity) : s.insert n = .done (s.mark n) := if_pos h

theorem insert_of_growable {n : Nat} (h : s.capacity ≤ n) (hg : s.growable = true) :
    s.insert n = ⟨.ok (), (s.grow (wordIndex n + 1)).set.mark n,
      (s.grow (wordIndex n + 1)).events⟩ := by
  rw [insert, if_neg (Nat.not_lt.2 h), if_pos hg]

theorem insert_of_fixed {n : Nat} (h : s.capacity ≤ n) (hg : s.growable = false) :
    s.insert n = s.misuse (.outOfRange .insert n s.capacity) := by
  rw [insert, if_neg (Nat.not_lt.2 h), hg, if_neg Bool.false_ne_true]

theorem lt_capacity_grow {n : Nat} (h : s.capacity ≤ n) :
    n < (s.grow (wordIndex n + 1)).set.capacity := by
  have hw : s.wordCount ≤ wordIndex n := Nat.not_lt.1 fun hn =>
    Nat.not_lt.2 h (wordIndex_lt_iff.1 hn)
  rw [capacity, ← wordIndex_lt_iff, s.wordCount_grow (Nat.le_succ_of_le hw)]
  exact le_leastPowerOfTwo _

theorem contains_insert {n : Nat} (h : (s.insert n).result = .ok ()) (m : Nat) :
    (s.insert n).set.contains m = (decide (n = m) || s.contains m) := by
  rcases Nat.lt_or_ge n s.capacity with hn | hn
  · rw [s.insert_of_lt hn]
    exact s.contains_mark hn m
  · cases hg : s.growable with
    | true =>
        rw [s.insert_of_growable hn hg]
        rw [contains_mark _ (s.lt_capacity_grow hn), contains_grow]
    | false =>
        rw [s.insert_of_fixed hn hg] at h
        cases h

@[simp] theorem growable_insert (n : Nat) : (s.insert n).set.growable = s.growable := by
  unfold insert
  split
  · rfl
  · split <;> rfl

theorem erase_of_lt {n : Nat} (h : n < s.capacity) : s.erase n = .done (s.unmark n) := if_pos h

theorem erase_of_capacity_le {n : Nat} (h : s.capacity ≤ n) :
    s.erase n = s.misuse (.outOfRange .erase n s.capacity) := if_neg (Nat.not_lt.2 h)

@[simp] theorem extend_nil : s.extend [] = .done s := rfl

theorem extend_cons (n : Nat) (rest : List Nat) :
    s.extend (n :: rest) = (s.insert n).andThen fun t => t.extend rest :=
  Outcome.forEach_cons insert s n rest

theorem contains_extend {positions : List Nat} (h : (s.extend positions).result = .ok ())
    (m : Nat) : (s.extend positions).set.contains m = (decide (m ∈ positions) || s.contains m) := by
  induction positions generalizing s with
  | nil => simp [Outcome.done]
  | cons n rest ih =>
      rw [extend_cons] at h ⊢
      cases hn : (s.insert n).result with
      | error fault =>
          rw [Outcome.andThen_of_error hn] at h
          cases h
      | ok u =>
          rw [Outcome.andThen_of_ok hn] at h ⊢
          rw [ih _ h, s.contains_insert hn, ← Bool.or_assoc, ← Bool.decide_or]
          congr 1
          exact decide_eq_decide.2 (by rw [List.mem_cons, or_comm, eq_comm])

end PackedSet.BitSet
