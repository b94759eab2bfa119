import PackedSet.BitSet.Algebra
import PackedSet.BitSet.Update.Membership

/-!
# Members after an operation on whole sets

Words and members of a result, in terms of the operands.
-/

namespace PackedSet.BitSet

variable (s : BitSet)

@[simp] theorem growable_overwrite (f : Nat → Word) : (s.overwrite f).growable = s.growable := rfl

@[simp] theorem wordCount_overwrite (f : Nat → Word) :
    (s.overwrite f).wordCount = s.wordCount := Array.size_mapIdx

theorem wordAt_overwrite (f : Nat → Word) {i : Nat} (h : i < s.wordCount) :
    (s.overwrite f).wordAt i = f i := by
  have h' : i < s.words.size := h
  simp only [wordAt, overwrite, Array.getD_eq_getD_getElem?, Array.getElem?_mapIdx,
    Array.getElem?_eq_getElem h', Option.map_some, Option.getD_some]

/-- Words that fit are stored without loss. -/
theorem wordAt_overwrite_of_fit {f : Nat → Word} (h : ∀ i, s.wordCount ≤ i → f i = 0) (i : Nat) :
    (s.overwrite f).wordAt i = f i := by
  rcases Nat.lt_or_ge i s.wordCount with hi | hi
  · exact s.wordAt_overwrite f hi
  · rw [h i hi]
    exact wordAt_of_wordCount_le _ ((s.wordCount_overwrite f).symm ▸ hi)

theorem commonExtent_le_iff {a b : BitSet} {k : Nat} :
    commonExtent a b ≤ k ↔ ∀ i, k ≤ i → a.wordAt i &&& b.wordAt i = 0 := by
  rw [commonExtent, reach_le_iff]
  constructor
  · intro h i hk
    rcases Nat.lt_or_ge i (min a.wordCount b.wordCount) with hi | hi
    · exact h i hk hi
    · rcases Nat.le_total a.wordCount b.wordCount with hab | hab
      · rw [a.wordAt_of_wordCount_le (Nat.min_eq_left hab ▸ hi)]
        exact UInt32.zero_and
      · rw [b.wordAt_of_wordCount_le (Nat.min_eq_right hab ▸ hi)]
        exact UInt32.and_zero
  · exact fun h i hk _ => h i hk

theorem wordAt_inter {a b : BitSet} (h : (s.inter a b).result = .ok ()) (i : Nat) :
    (s.inter a b).set.wordAt i = a.wordAt i &&& b.wordAt i := by
  rcases s.ensure_result_cases (commonExtent a b) with hr | hr
  · rw [inter, Outcome.andThen_of_ok hr]
    exact wordAt_overwrite_of_fit _ (fun j hj =>
      commonExtent_le_iff.1 (Nat.le_refl _) j (Nat.le_trans (s.le_wordCount_ensure hr) hj)) i
  · rw [inter, Outcome.andThen_of_error hr] at h
    cases h

theorem wordAt_union {a b : BitSet} (h : (s.union a b).result = .ok ()) (i : Nat) :
    (s.union a b).set.wordAt i = a.wordAt i ||| b.wordAt i := by
  rcases s.ensure_result_cases (max a.extent b.extent) with hr | hr
  · rw [union, Outcome.andThen_of_ok hr]
    refine wordAt_overwrite_of_fit _ (fun j hj => ?_) i
    have hle := Nat.le_trans (s.le_wordCount_ensure hr) hj
    rw [a.wordAt_of_extent_le (Nat.le_trans (Nat.le_max_left _ _) hle),
      b.wordAt_of_extent_le (Nat.le_trans (Nat.le_max_right _ _) hle)]
    exact UInt32.zero_or
  · rw [union, Outcome.andThen_of_error hr] at h
    cases h

theorem wordAt_merge {src : BitSet} {changed : Bool} (h : (s.merge src).result = .ok changed)
    (i : Nat) : (s.merge src).set.wordAt i = s.wordAt i ||| src.wordAt i := by
  rcases s.ensure_result_cases src.extent with hr | hr
  · rw [merge, Outcome.andThen_of_ok hr]
    rw [← s.wordAt_ensure src.extent i]
    refine wordAt_overwrite_of_fit (s.ensure src.extent).set (fun j hj => ?_) i
    rw [wordAt_of_wordCount_le _ hj,
      src.wordAt_of_extent_le (Nat.le_trans (s.le_wordCount_ensure hr) hj)]
    exact UInt32.zero_or
  · rw [merge, Outcome.andThen_of_error hr] at h
    cases h

@[simp] theorem wordCount_meet (src : BitSet) : (s.meet src).set.wordCount = s.wordCount :=
  s.wordCount_overwrite _

theorem wordAt_meet (src : BitSet) (i : Nat) :
    (s.meet src).set.wordAt i = s.wordAt i &&& src.wordAt i := by
  refine wordAt_overwrite_of_fit s (fun j hj => ?_) i
  rw [s.wordAt_of_wordCount_le hj]
  exact UInt32.zero_and

theorem contains_inter {a b : BitSet} (h : (s.inter a b).result = .ok ()) (n : Nat) :
    (s.inter a b).set.contains n = (a.contains n && b.contains n) := by
  rw [contains, s.wordAt_inter h, Word.test_and, contains, contains]

theorem contains_union {a b : BitSet} (h : (s.union a b).result = .ok ()) (n : Nat) :
    (s.union a b).set.contains n = (a.contains n || b.contains n) := by
  rw [contains, s.wordAt_union h, Word.test_or, contains, contains]

theorem contains_merge {src : BitSet} {changed : Bool} (h : (s.merge src).result = .ok changed)
    (n : Nat) : (s.merge src).set.contains n = (s.contains n || src.contains n) := by
  rw [contains, s.wordAt_merge h, Word.test_or, contains, contains]

theorem contains_meet (src : BitSet) (n : Nat) :
    (s.meet src).set.contains n = (s.contains n && src.contains n) := by
  rw [contains, s.wordAt_meet, Word.test_and, contains, contains]

end PackedSet.BitSet
