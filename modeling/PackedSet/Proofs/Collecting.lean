import PackedSet.Proofs.Storing
import PackedSet.Proofs.Failure
import PackedSet.Proofs.Cursor.Ahead

/-!
# Collecting positions

A growable set that takes in a list of positions ends as the set that holds its members and these
positions, in the room for the largest of them. Which growths there are on the way depends on the
order of the list, but how the set ends does not. So to collect a list and to walk the set is to
sort the list without its repetitions, and to walk a set and to collect what was found gives the set
back.
-/

namespace PackedSet

namespace PlainSet

theorem insert_of_growable {p : PlainSet} (hg : p.growable = true) (n : Nat) :
    p.insert n = (.ok (), p.hold (p.members ∪ {n})) := by
  rw [insert, if_neg]
  simp [hg]

/-- Positions that go in one by one leave what they leave when they go in at once. -/
theorem extend_of_growable {p : PlainSet} (hg : p.growable = true) (positions : List Nat) :
    p.extend positions = (.ok (), p.hold (p.members ∪ positions.toFinset)) := by
  induction positions generalizing p with
  | nil => simp [extend, hold_members]
  | cons n rest ih =>
      have hmembers : p.members ∪ {n} ∪ rest.toFinset = p.members ∪ (n :: rest).toFinset := by
        simp
      have hsub : p.members ∪ {n} ⊆ p.members ∪ {n} ∪ rest.toFinset := Finset.subset_union_left
      have hlater := ih (p := p.hold (p.members ∪ {n})) hg
      rw [members_hold, p.hold_hold hsub, hmembers] at hlater
      rw [extend, insert_of_growable hg]
      exact hlater

end PlainSet

namespace BitSet

theorem eq_of_plain_eq {s t : BitSet} (h : s.plain = t.plain) : s = t := by
  have hcontains : ∀ n, s.contains n = t.contains n := by
    intro n
    rw [Bool.eq_iff_iff, ← mem_plain, ← mem_plain, h]
  exact ext_words (congrArg PlainSet.growable h) (congrArg PlainSet.wordCount h) hcontains

theorem plain_set_extend {s : BitSet} (hg : s.growable = true) (positions : List Nat) :
    (s.extend positions).set.plain = s.plain.hold (s.plain.members ∪ positions.toFinset) := by
  have hrun := s.plain_extend positions
  rw [PlainSet.extend_of_growable hg] at hrun
  exact congrArg Prod.snd hrun

/-- How often and in which order the positions stand in the list makes no difference. -/
theorem set_extend_congr {s : BitSet} (hg : s.growable = true) {xs ys : List Nat}
    (h : ∀ n, n ∈ xs ↔ n ∈ ys) : (s.extend xs).set = (s.extend ys).set := by
  have hset : xs.toFinset = ys.toFinset := by
    ext n
    simp [h]
  apply eq_of_plain_eq
  rw [plain_set_extend hg, plain_set_extend hg, hset]

variable (xs : List Nat)

theorem growable_collect : (collect xs).result.growable = true :=
  (expandable 0).growable_extend xs

theorem contains_collect (n : Nat) : (collect xs).result.contains n = true ↔ n ∈ xs := by
  have hok : ((expandable 0).extend xs).result = .ok () := BitSet.extend_of_growable rfl xs
  have hcontains := (expandable 0).contains_extend hok n
  rw [expandable, contains_blank, Bool.or_false] at hcontains
  simp [collect, expandable, hcontains]

theorem wordCount_collect :
    (collect xs).result.wordCount = room 0 (wordsOf xs.toFinset) := by
  have hplain := plain_set_extend (s := expandable 0) rfl xs
  have hcount := congrArg PlainSet.wordCount hplain
  rw [PlainSet.wordCount_hold, PlainSet.room_wordsOf_union] at hcount
  exact hcount

theorem isLeast_wordCount_collect {top : Nat} (h : IsGreatest {n | n ∈ xs} top) :
    IsLeast {p | top / Word.width + 1 ≤ p ∧ p.isPowerOfTwo} (collect xs).result.wordCount := by
  have hset : {n | n ∈ xs.toFinset} = {n | n ∈ xs} := by simp
  have hwords : wordsOf xs.toFinset = top / Word.width + 1 :=
    wordsOf_of_isGreatest (hset ▸ h)
  rw [wordCount_collect, hwords, room_of_lt (Nat.succ_pos _)]
  exact isLeast_leastPowerOfTwo _

theorem toList_collect : (collect xs).result.toList = xs.dedup.mergeSort := by
  have hle : xs.dedup.mergeSort.Pairwise (· ≤ ·) := xs.dedup.sortedLE_mergeSort.pairwise
  have hne : xs.dedup.mergeSort.Nodup := (List.mergeSort_perm _ _).nodup_iff.2 xs.nodup_dedup
  have hlt : xs.dedup.mergeSort.Pairwise (· < ·) :=
    (hle.and hne).imp fun h => Nat.lt_of_le_of_ne h.1 h.2
  apply (pairwise_toList _).eq_of_mem_iff hlt
  intro n
  rw [mem_toList, mem_iff, contains_collect, List.mem_mergeSort, List.mem_dedup]

/-- A collected list is walked as the list itself, sorted and without repetitions. The set is
growable and has as many words as the least power of two that holds the greatest position, and none
for the empty list. Lists of the same positions leave the same set, whether they are collected or
extend a growable set. What a walk over a set finds, collected in any order, is that set again. -/
theorem collect_sorts :
    (∀ xs : List Nat,
      let s := (collect xs).result
      s.cursor.rest.1 = xs.dedup.mergeSort ∧ s.growable = true ∧
        (xs = [] → s.wordCount = 0) ∧
        ∀ top, IsGreatest {n | n ∈ xs} top →
          IsLeast {p | top / Word.width + 1 ≤ p ∧ p.isPowerOfTwo} s.wordCount) ∧
    (∀ xs ys : List Nat, (∀ n, n ∈ xs ↔ n ∈ ys) →
      (collect xs).result = (collect ys).result ∧
        ∀ s : BitSet, s.growable = true →
          (s.extend xs).result = .ok () ∧ (s.extend ys).result = .ok () ∧
            (s.extend xs).set = (s.extend ys).set) ∧
    ∀ (s : BitSet) (xs : List Nat), xs.Perm s.cursor.rest.1 →
      (collect xs).result.sameMembers s = true := by
  refine ⟨?_, ?_, ?_⟩
  · intro xs s
    refine ⟨?_, growable_collect xs, ?_, fun top htop => isLeast_wordCount_collect xs htop⟩
    · rw [Cursor.rest_cursor, toList_collect]
    · rintro rfl
      rfl
  · intro xs ys h
    refine ⟨set_extend_congr rfl h, fun s hg => ?_⟩
    exact ⟨BitSet.extend_of_growable hg xs, BitSet.extend_of_growable hg ys, set_extend_congr hg h⟩
  · intro s xs hperm
    rw [sameMembers_iff]
    intro n
    rw [Bool.eq_iff_iff, contains_collect, hperm.mem_iff, Cursor.rest_cursor, mem_toList]
    rfl

/-- The first list makes the set grow once, the second one twice. -/
theorem collect_sorts_reordered :
    let xs := [70, 3, 70]
    let ys := [3, 70]
    let s : BitSet := ⟨#[8, 0, 64, 0], true⟩
    (∀ n, n ∈ xs ↔ n ∈ ys) ∧ (collect xs).result = (collect ys).result ∧
      (s.extend xs).set = (s.extend ys).set ∧
      IsGreatest {n | n ∈ ys} 70 ∧
      IsLeast {p | 3 ≤ p ∧ p.isPowerOfTwo} (collect ys).result.wordCount ∧
      xs.dedup.Perm s.cursor.rest.1 ∧ (collect xs.dedup).result.sameMembers s = true := by
  intro xs ys s
  obtain ⟨hsort, hsame, hback⟩ := collect_sorts
  have hmem : ∀ n, n ∈ xs ↔ n ∈ ys := by
    intro n
    simp [xs, ys]
    omega
  have htop : IsGreatest {n | n ∈ ys} 70 := by
    refine ⟨by simp [ys], fun n hn => ?_⟩
    rcases List.mem_pair.1 hn with rfl | rfl <;> omega
  have hperm : xs.dedup.Perm s.cursor.rest.1 := by decide +kernel
  obtain ⟨hcollect, hextend⟩ := hsame xs ys hmem
  exact ⟨hmem, hcollect, (hextend s rfl).2.2, htop, (hsort ys).2.2.2 70 htop, hperm,
    hback s _ hperm⟩

end BitSet

end PackedSet
