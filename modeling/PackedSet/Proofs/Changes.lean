import PackedSet.Proofs.Storing
import PackedSet.Proofs.Lattice
import PackedSet.Proofs.Passes

/-!
# Changes in place

A merge puts in the members of its source and a meet takes out what is not in it. Each answers
whether a member was put in or taken out: the answer is `true` exactly if the number of members
changes, and after `false` every word is as it was. To grow is no change by itself, but a merge
grows only for a member outside the capacity, which is new.
-/

namespace PackedSet.BitSet

theorem not_subset_iff {a b : BitSet} : ¬ a.plain.members ⊆ b.plain.members ↔
    ∃ n, a.contains n = true ∧ b.contains n = false := by
  rw [Finset.not_subset]
  exact exists_congr fun n => by rw [mem_plain, mem_plain, Bool.not_eq_true]

/-- A set with no other members than `b` is smaller exactly if it lacks one of them. -/
theorem size_lt_size_iff {a b : BitSet} (h : a.plain.members ⊆ b.plain.members) :
    a.size < b.size ↔ ¬ b.plain.members ⊆ a.plain.members := by
  rw [size_eq_card, size_eq_card]
  constructor
  · intro hlt hsub
    have hcard := Finset.card_le_card hsub
    omega
  · exact fun hsub => Finset.card_lt_card ⟨h, hsub⟩

/-- The outcome `o` of a call on `d` is that the members of `s` are put in, in as little room as
they need, and the answer tells whether one of them is new. -/
structure MergesExactly (d s : BitSet) (o : Outcome (Except SizeMismatch Bool)) : Prop where
  refused_iff : (∃ m, o.result = .error m) ↔
    d.growable = false ∧ ∃ n, s.contains n = true ∧ d.capacity ≤ n
  /-- A refusal tells the word of the greatest member. -/
  mismatch : ∀ m, o.result = .error m →
    ∃ top, IsGreatest {n | s.contains n = true} top ∧ m = ⟨top / Word.width + 1, d.wordCount⟩
  contains : ∀ changed, o.result = .ok changed →
    ∀ n, o.set.contains n = true ↔ d.contains n = true ∨ s.contains n = true
  changed_iff : ∀ changed, o.result = .ok changed →
    (changed = true ↔ ∃ n, s.contains n = true ∧ d.contains n = false)
  size_lt_iff : d.size < o.set.size ↔ o.result = .ok true
  grows_iff : d.wordCount < o.set.wordCount ↔
    d.growable = true ∧ ∃ n, s.contains n = true ∧ d.capacity ≤ n
  unchanged : o.result = .ok false → o.set = d

section merge

variable (d s : BitSet)

theorem wordCount_lt_extent_iff :
    d.wordCount < s.extent ↔ ∃ n, s.contains n = true ∧ d.capacity ≤ n := by
  rw [extent_eq]
  exact lt_wordsOf_iff_wanted fun n => s.mem_plain

theorem not_fits_extent_iff : ¬ d.Fits s.extent ↔
    d.growable = false ∧ ∃ n, s.contains n = true ∧ d.capacity ≤ n := by
  rw [not_fits_iff, wordCount_lt_extent_iff, and_comm]

variable {d s}

theorem members_set_merge (h : d.Fits s.extent) :
    (d.merge s).set.plain.members = d.plain.members ∪ s.plain.members := by
  ext n
  rw [mem_plain, contains_set_merge h, Finset.mem_union, mem_plain, mem_plain, Bool.or_eq_true]

theorem size_lt_size_merge_iff (h : d.Fits s.extent) :
    d.size < (d.merge s).set.size ↔ ¬ s.plain.members ⊆ d.plain.members := by
  have hmembers := members_set_merge h
  have hsub : d.plain.members ⊆ (d.merge s).set.plain.members :=
    hmembers ▸ Finset.subset_union_left
  rw [size_lt_size_iff hsub, hmembers, Finset.union_subset_iff,
    and_iff_right (Finset.Subset.refl _)]

theorem mergesExactly_of_fits (h : d.Fits s.extent) : d.MergesExactly s (d.merge s) := by
  have hresult := d.result_merge h
  constructor
  case refused_iff =>
    refine iff_of_false ?_ fun hr => (d.not_fits_extent_iff s).2 hr h
    rintro ⟨m, hm⟩
    rw [hresult] at hm
    cases hm
  case mismatch =>
    intro m hm
    rw [hresult] at hm
    cases hm
  case contains =>
    intro changed hchanged n
    rw [d.contains_merge hchanged, Bool.or_eq_true]
  case changed_iff =>
    intro changed hchanged
    obtain rfl := Except.ok.inj (hresult.symm.trans hchanged)
    rw [decide_eq_true_eq, not_subset_iff]
  case size_lt_iff =>
    rw [size_lt_size_merge_iff h, hresult, Except.ok.injEq, decide_eq_true_eq]
  case grows_iff =>
    rw [d.wordCount_merge h, lt_room_iff, wordCount_lt_extent_iff]
    refine ⟨fun hout => ⟨?_, hout⟩, And.right⟩
    exact Bool.of_not_eq_false fun hg => (d.not_fits_extent_iff s).2 ⟨hg, hout⟩ h
  case unchanged =>
    intro hfalse
    rw [hresult, Except.ok.injEq, decide_eq_false_iff_not, not_not] at hfalse
    exact set_merge_eq_self_iff.2 fun _ => hfalse

theorem mergesExactly_of_not_fits (h : ¬ d.Fits s.extent) : d.MergesExactly s (d.merge s) := by
  obtain ⟨hlt, hg⟩ := not_fits_iff.1 h
  rw [d.merge_of_not_fits h]
  constructor
  case refused_iff => exact iff_of_true ⟨_, rfl⟩ ((d.not_fits_extent_iff s).1 h)
  case mismatch =>
    rintro m ⟨⟩
    rw [extent_eq] at hlt
    obtain ⟨top, htop, hwords⟩ := exists_isGreatest_wanted (fun n => s.mem_plain) hlt
    exact ⟨top, htop, by rw [extent_eq, hwords]⟩
  case contains =>
    intro changed hchanged
    cases hchanged
  case changed_iff =>
    intro changed hchanged
    cases hchanged
  case size_lt_iff => exact iff_of_false (Nat.lt_irrefl _) fun htrue => by cases htrue
  case grows_iff =>
    refine iff_of_false (Nat.lt_irrefl _) fun hr => ?_
    rw [hg] at hr
    cases hr.1
  case unchanged =>
    intro hfalse
    cases hfalse

end merge

/-- A merge is refused exactly if the set is fixed and the source has a member outside its
capacity, and the refusal names the word of the greatest member of the source. Otherwise the set
holds what it held and the members of the source. The answer is `true` exactly if one of them is
new, which is also exactly if the set has more members than before. After `false` the set is the
same, word by word. -/
theorem merge_mergesExactly (d s : BitSet) : d.MergesExactly s (d.merge s) := by
  by_cases h : d.Fits s.extent
  · exact mergesExactly_of_fits h
  · exact mergesExactly_of_not_fits h

/-- Zero words of the source past the end of a fixed set are no reason to refuse. -/
example : ((⟨#[2], false⟩ : BitSet).merge ⟨#[6, 0, 0], true⟩).set = ⟨#[6], false⟩ := by decide

/-- The outcome `o` of a call on `d` is that what is not in `s` is taken out, and the answer tells
whether there was such a member. -/
structure MeetsExactly (d s : BitSet) (o : Outcome Bool) : Prop where
  contains : ∀ n, o.set.contains n = true ↔ d.contains n = true ∧ s.contains n = true
  /-- Nothing is left past the end of the source. -/
  contains_past : ∀ n, s.capacity ≤ n → o.set.contains n = false
  changed_iff : o.result = true ↔ ∃ n, d.contains n = true ∧ s.contains n = false
  size_lt_iff : o.set.size < d.size ↔ o.result = true
  wordCount_eq : o.set.wordCount = d.wordCount
  unchanged : o.result = false → o.set = d

theorem members_set_meet (d s : BitSet) :
    (d.meet s).set.plain.members = d.plain.members ∩ s.plain.members := by
  ext n
  rw [mem_plain, d.contains_meet, Finset.mem_inter, mem_plain, mem_plain, Bool.and_eq_true]

theorem size_meet_lt_size_iff (d s : BitSet) :
    (d.meet s).set.size < d.size ↔ ¬ d.plain.members ⊆ s.plain.members := by
  have hmembers := members_set_meet d s
  have hsub : (d.meet s).set.plain.members ⊆ d.plain.members :=
    hmembers ▸ Finset.inter_subset_left
  rw [size_lt_size_iff hsub, hmembers, Finset.subset_inter_iff,
    and_iff_right (Finset.Subset.refl _)]

theorem result_meet_eq_true_iff (d s : BitSet) :
    (d.meet s).result = true ↔ ¬ d.plain.members ⊆ s.plain.members := by
  rw [← result_meet_eq_false_iff, Bool.not_eq_false]

/-- A meet leaves the members of both sets, in as many words as before, and nothing past the end of
the source. The answer is `true` exactly if a member of the set was not in the source, which is also
exactly if the set has fewer members than before. After `false` the set is the same, word by
word. -/
theorem meet_meetsExactly (d s : BitSet) : d.MeetsExactly s (d.meet s) := by
  constructor
  case contains =>
    intro n
    rw [d.contains_meet, Bool.and_eq_true]
  case contains_past =>
    intro n hn
    rw [d.contains_meet, s.contains_of_capacity_le hn, Bool.and_false]
  case changed_iff => rw [result_meet_eq_true_iff, not_subset_iff]
  case size_lt_iff => rw [size_meet_lt_size_iff, result_meet_eq_true_iff]
  case wordCount_eq => exact d.wordCount_meet s
  case unchanged =>
    intro hfalse
    exact set_meet_eq_self_iff.2 ((result_meet_eq_false_iff d s).1 hfalse)

/-- Words past the end of the source that are already zero are no change. -/
example : ((⟨#[2, 0], false⟩ : BitSet).meet ⟨#[6], true⟩).result = false := by decide

end PackedSet.BitSet
