import PackedSet.Proofs.Capacity
import PackedSet.Proofs.Lattice
import Mathlib.Data.Nat.Nth

/-!
# First fit in closed form

The gaps of a set are the numbers that it does not contain, counted from the least. An allocation
closes the first gap and hands it out, and the next one finds the gap after it. So a run of
allocations on a growable set hands out the gaps in order, and one on a fixed set those under the
capacity and then nothing more. A growable set grows at each call that finds no gap under the
capacity.
-/

namespace PackedSet

namespace PlainSet

variable (p : PlainSet)

/-- The gap with the number `i`. The least one has the number `0`. -/
noncomputable def gap (i : Nat) : Nat := Nat.nth (· ∉ p.members) i

def gapCount : Nat := p.capacity - p.members.card

noncomputable def withGaps (count : Nat) : Finset Nat := p.members ∪ Finset.range (p.gap count)

noncomputable def closeGaps (count : Nat) : PlainSet := p.hold (p.withGaps count)

theorem infinite_gaps : {n | n ∉ p.members}.Infinite := p.members.finite_toSet.infinite_compl

theorem gap_notMem (i : Nat) : p.gap i ∉ p.members := Nat.nth_mem_of_infinite p.infinite_gaps i

theorem strictMono_gap : StrictMono p.gap := Nat.nth_strictMono p.infinite_gaps

theorem notMem_iff_exists_gap_eq {n : Nat} : n ∉ p.members ↔ ∃ i, p.gap i = n := by
  constructor
  · intro hn
    have hrange := Nat.range_nth_of_infinite p.infinite_gaps
    exact hrange.ge hn
  · rintro ⟨i, rfl⟩
    exact p.gap_notMem i

theorem capacity_notMem : p.capacity ∉ p.members := fun h => Nat.lt_irrefl _ (p.lt_capacity h)

theorem count_gaps : Nat.count (· ∉ p.members) p.capacity = p.gapCount := by
  have hsub : p.members ⊆ Finset.range p.capacity := fun n hn =>
    Finset.mem_range.2 (p.lt_capacity hn)
  rw [Nat.count_eq_card_filter_range, Finset.filter_notMem_eq_sdiff,
    Finset.card_sdiff_of_subset hsub, Finset.card_range, gapCount]

/-- The capacity is the first gap that does not lie under it. -/
theorem gap_gapCount : p.gap p.gapCount = p.capacity := by
  rw [← count_gaps]
  exact Nat.nth_count p.capacity_notMem

/-- The gaps under the capacity are the first ones. -/
theorem gap_lt_capacity_iff {i : Nat} : p.gap i < p.capacity ↔ i < p.gapCount := by
  have hlt : p.gap i < p.gap p.gapCount ↔ i < p.gapCount := p.strictMono_gap.lt_iff_lt
  rwa [gap_gapCount] at hlt

theorem mem_withGaps {count n : Nat} :
    n ∈ p.withGaps count ↔ n ∈ p.members ∨ n < p.gap count := by
  rw [withGaps, Finset.mem_union, Finset.mem_range]

theorem withGaps_zero : p.withGaps 0 = p.members := by
  refine Finset.union_eq_left.2 fun n hn => ?_
  by_contra hgap
  obtain ⟨i, rfl⟩ := p.notMem_iff_exists_gap_eq.1 hgap
  have hle := p.strictMono_gap.monotone (Nat.zero_le i)
  have hlt := Finset.mem_range.1 hn
  omega

theorem withGaps_succ (count : Nat) :
    p.withGaps (count + 1) = p.withGaps count ∪ {p.gap count} := by
  have hlt : p.gap count < p.gap (count + 1) := p.strictMono_gap (Nat.lt_succ_self count)
  ext n
  rw [Finset.mem_union, Finset.mem_singleton, mem_withGaps, mem_withGaps]
  by_cases hn : n ∈ p.members
  · simp only [hn, true_or]
  · -- between two neighbouring gaps there is none
    have hle : n < p.gap (count + 1) → n ≤ p.gap count := fun h => Nat.le_nth_of_lt_nth_succ h hn
    simp only [hn, false_or]
    omega

theorem gap_notMem_withGaps (count : Nat) : p.gap count ∉ p.withGaps count := by
  rw [mem_withGaps]
  exact not_or.2 ⟨p.gap_notMem count, Nat.lt_irrefl _⟩

theorem withGaps_gapCount : p.withGaps p.gapCount = Finset.range p.capacity := by
  rw [withGaps, gap_gapCount]
  exact Finset.union_eq_right.2 fun n hn => Finset.mem_range.2 (p.lt_capacity hn)

theorem closeGaps_zero : p.closeGaps 0 = p := by rw [closeGaps, withGaps_zero, hold_members]

theorem leastAbsent_closeGaps (count : Nat) : (p.closeGaps count).leastAbsent = p.gap count := by
  refine (Nat.find_eq_iff _).2 ⟨p.gap_notMem_withGaps count, fun n hn => not_not.2 ?_⟩
  exact p.mem_withGaps.2 (Or.inr hn)

theorem capacity_le_closeGaps (count : Nat) : p.capacity ≤ (p.closeGaps count).capacity :=
  Nat.mul_le_mul_left Word.width (count_le_room _ _)

/-- An allocation closes one more gap, as long as there is one or the set may grow. -/
theorem allocate_closeGaps {count : Nat} (h : p.growable = true ∨ count < p.gapCount) :
    (p.closeGaps count).allocate = (some (p.gap count), p.closeGaps (count + 1)) := by
  have hfree : ¬ (p.growable = false ∧
      p.withGaps count = Finset.range (p.closeGaps count).capacity) := by
    rintro ⟨hg, hfull⟩
    have hlt : count < p.gapCount := h.resolve_left (hg ▸ Bool.false_ne_true)
    apply p.gap_notMem_withGaps count
    rw [hfull, Finset.mem_range]
    exact Nat.lt_of_lt_of_le (p.gap_lt_capacity_iff.2 hlt) (p.capacity_le_closeGaps count)
  have hnext : (p.closeGaps count).hold (p.withGaps count ∪ {p.gap count}) =
      p.closeGaps (count + 1) := by
    rw [closeGaps, closeGaps, withGaps_succ]
    exact p.hold_hold Finset.subset_union_left
  rw [allocate, leastAbsent_closeGaps, ← hnext]
  exact if_neg hfree

/-- With the gaps under the capacity closed, the set is full. -/
theorem members_closeGaps_gapCount : (p.closeGaps p.gapCount).members =
    Finset.range (p.closeGaps p.gapCount).capacity := by
  have hwords : wordsOf (Finset.range p.capacity) ≤ p.wordCount :=
    wordsOf_le_iff.2 fun n hn => Finset.mem_range.1 hn
  have hcount : (p.closeGaps p.gapCount).wordCount = p.wordCount := by
    rw [closeGaps, withGaps_gapCount]
    exact room_of_le hwords
  rw [capacity, hcount]
  exact p.withGaps_gapCount

end PlainSet

namespace BitSet

variable (s : BitSet)

theorem allocateMany_add (first later : Nat) : s.allocateMany (first + later) =
    ⟨(s.allocateMany first).result ++ ((s.allocateMany first).set.allocateMany later).result,
      ((s.allocateMany first).set.allocateMany later).set,
      (s.allocateMany first).events ++ ((s.allocateMany first).set.allocateMany later).events⟩ := by
  induction first generalizing s with
  | zero =>
      rw [Nat.zero_add]
      rfl
  | succ first ih =>
      rw [Nat.add_right_comm, allocateMany, ih, allocateMany]
      simp only [List.cons_append, List.append_assoc]

theorem length_result_allocateMany (count : Nat) :
    (s.allocateMany count).result.length = count := by
  induction count generalizing s with
  | zero => rfl
  | succ count ih =>
      rw [allocateMany, List.length_cons, ih]

/-- Each call of a run is an allocation from the set that the calls before it leave. -/
theorem set_allocateMany_succ (count : Nat) :
    (s.allocateMany (count + 1)).set = (s.allocateMany count).set.allocate.set := by
  rw [allocateMany_add]
  rfl

theorem result_allocateMany_succ (count : Nat) : (s.allocateMany (count + 1)).result =
    (s.allocateMany count).result ++ [(s.allocateMany count).set.allocate.result] := by
  rw [allocateMany_add]
  rfl

theorem getElem?_result_allocateMany {i count : Nat} (h : i < count) :
    (s.allocateMany count).result[i]? = some (s.allocateMany i).set.allocate.result := by
  obtain ⟨rest, rfl⟩ := Nat.exists_eq_add_of_lt h
  have hlength := s.length_result_allocateMany i
  rw [Nat.add_assoc, allocateMany_add, List.getElem?_append_right (Nat.le_of_eq hlength), hlength,
    Nat.sub_self]
  rfl

theorem allocateMany_of_full (hg : s.growable = false) (h : s.firstFree? = none) (count : Nat) :
    s.allocateMany count = ⟨List.replicate count none, s, []⟩ := by
  induction count with
  | zero => rfl
  | succ count ih =>
      rw [allocateMany, s.allocate_of_full hg h, ih]
      rfl

/-- As long as there are gaps to close, a run closes them in order. -/
theorem plain_allocateMany_eq {count : Nat}
    (h : s.growable = true ∨ count ≤ s.plain.gapCount) : (s.allocateMany count).plain =
      ((List.range count).map fun i => some (s.plain.gap i), s.plain.closeGaps count) := by
  induction count with
  | zero =>
      rw [PlainSet.closeGaps_zero]
      rfl
  | succ count ih =>
      have hbefore := ih (h.imp_right Nat.le_of_succ_le)
      have hset : (s.allocateMany count).set.plain = s.plain.closeGaps count :=
        congrArg Prod.snd hbefore
      have hresult : (s.allocateMany count).result =
          (List.range count).map fun i => some (s.plain.gap i) := congrArg Prod.fst hbefore
      have hstep := (s.allocateMany count).set.plain_allocate
      rw [hset, s.plain.allocate_closeGaps (h.imp_right Nat.lt_of_succ_le)] at hstep
      have hanswer : (s.allocateMany count).set.allocate.result = some (s.plain.gap count) :=
        congrArg Prod.fst hstep
      rw [Outcome.plain, result_allocateMany_succ, set_allocateMany_succ, hresult, hanswer,
        List.range_succ, List.map_append]
      exact congrArg _ (congrArg Prod.snd hstep)

theorem result_allocateMany_of_fixed (hg : s.growable = false) (count : Nat) :
    (s.allocateMany count).result =
      ((List.range (min count s.plain.gapCount)).map fun i => some (s.plain.gap i)) ++
        List.replicate (count - s.plain.gapCount) none := by
  rcases Nat.le_total count s.plain.gapCount with hle | hle
  · have hrun := congrArg Prod.fst (s.plain_allocateMany_eq (Or.inr hle))
    rw [Nat.min_eq_left hle, Nat.sub_eq_zero_of_le hle, List.replicate_zero, List.append_nil]
    exact hrun
  · -- once the last gap under the capacity is closed, the set is full and stays so
    obtain ⟨extra, rfl⟩ := Nat.exists_eq_add_of_le hle
    have hrun := s.plain_allocateMany_eq (Or.inr (Nat.le_refl s.plain.gapCount))
    have hset : (s.allocateMany s.plain.gapCount).set.plain = s.plain.closeGaps s.plain.gapCount :=
      congrArg Prod.snd hrun
    have hfull : (s.allocateMany s.plain.gapCount).set.firstFree? = none := by
      rw [← members_plain_eq_range_iff, ← capacity_plain, hset]
      exact s.plain.members_closeGaps_gapCount
    have hfixed := (s.growable_allocateMany s.plain.gapCount).trans hg
    rw [Nat.min_eq_right hle, Nat.add_sub_cancel_left, allocateMany_add,
      allocateMany_of_full _ hfixed hfull]
    exact congrArg (· ++ _) (congrArg Prod.fst hrun)

theorem contains_allocate (n : Nat) : s.allocate.set.contains n = true ↔
    s.contains n = true ∨ s.allocate.result = some n := by
  by_cases h : s.growable = true ∨ s.firstFree? ≠ none
  · have hinsert := s.result_insert (s.fits_leastAbsent h)
    rw [s.allocate_eq_insert h, s.contains_insert hinsert, Bool.or_eq_true, decide_eq_true_eq,
      or_comm, Option.some_inj]
  · rw [not_or, Bool.not_eq_true, not_not] at h
    rw [s.allocate_of_full h.1 h.2]
    simp

theorem contains_allocateMany (count n : Nat) :
    (s.allocateMany count).set.contains n = true ↔
      s.contains n = true ∨ some n ∈ (s.allocateMany count).result := by
  induction count generalizing s with
  | zero => simp [allocateMany]
  | succ count ih =>
      have hlater := ih s.allocate.set
      rw [contains_allocate, or_assoc] at hlater
      rw [allocateMany, List.mem_cons, @eq_comm _ (some n)]
      exact hlater

/-- The call `o` of an allocation on `s` grows the set exactly if it may grow and every position is
taken. It hands out the capacity then, and the set has as many words as the least power of two that
is more than before. -/
structure GrowsIfFull (s : BitSet) (o : Outcome (Option Nat)) : Prop where
  grows_iff : s.wordCount < o.set.wordCount ↔
    s.growable = true ∧ ∀ n, n < s.capacity → s.contains n = true
  wordCount_le : s.wordCount ≤ o.set.wordCount
  result_of_grows : s.wordCount < o.set.wordCount → o.result = some s.capacity
  isLeast_of_grows : s.wordCount < o.set.wordCount →
    IsLeast {p | s.wordCount + 1 ≤ p ∧ p.isPowerOfTwo} o.set.wordCount

theorem growsIfFull_of_kept {o : Outcome (Option Nat)} (hcount : o.set.wordCount = s.wordCount)
    (h : ¬ (s.growable = true ∧ ∀ n, n < s.capacity → s.contains n = true)) :
    s.GrowsIfFull o := by
  have hkept : ¬ s.wordCount < o.set.wordCount := hcount.not_gt
  exact ⟨iff_of_false hkept h, hcount.ge, fun hgrows => absurd hgrows hkept,
    fun hgrows => absurd hgrows hkept⟩

theorem allocate_growsIfFull : s.GrowsIfFull s.allocate := by
  cases hg : s.growable with
  | false =>
      refine s.growsIfFull_of_kept (wordCount_allocate_of_fixed hg) fun h => ?_
      rw [hg] at h
      cases h.1
  | true =>
      have hcount := wordCount_allocate_of_growable hg
      by_cases hfull : ∀ n, n < s.capacity → n ∈ s
      · have hnone := s.firstFree?_eq_none_iff.2 hfull
        rw [allocateDemand, if_pos hfull, largest_singleton,
          room_of_lt (Nat.lt_add_one s.wordCount)] at hcount
        have hle := le_leastPowerOfTwo (s.wordCount + 1)
        have hgrows : s.wordCount < s.allocate.set.wordCount := by omega
        refine ⟨iff_of_true hgrows ⟨hg, hfull⟩, Nat.le_of_lt hgrows, fun _ => ?_, fun _ => ?_⟩
        · rw [s.allocate_eq_insert (Or.inl hg), s.leastAbsent_of_full hnone]
        · rw [hcount]
          exact isLeast_leastPowerOfTwo (s.wordCount + 1)
      · rw [allocateDemand, if_neg hfull, largest_nil, room_zero] at hcount
        exact s.growsIfFull_of_kept hcount fun h => hfull h.2

theorem gap_plain : s.plain.gap = Nat.nth (· ∉ s) := by
  have habsent : (· ∉ s.plain.members) = (· ∉ s) := funext fun n => propext (not_congr s.mem_plain)
  funext i
  rw [PlainSet.gap, habsent]

theorem gapCount_plain : s.plain.gapCount = s.capacity - s.size := by
  rw [PlainSet.gapCount, size_eq_card, capacity_plain]

/-- Allocations hand out the numbers that the set does not contain, from the least on: on a
growable set as many as there are calls, and on a fixed one those under the capacity and then
nothing. The set holds what it held and what has been handed out. It grows exactly at those calls
that find every position taken; such a call hands out the capacity and takes the least power of two
words that is more than before. -/
theorem allocateMany_firstFit (s : BitSet) (count : Nat) :
    let o := s.allocateMany count
    let gap := Nat.nth (· ∉ s)
    let gaps := s.capacity - s.size
    (StrictMono gap ∧ (∀ n, n ∉ s ↔ ∃ i, gap i = n) ∧ ∀ i, gap i < s.capacity ↔ i < gaps) ∧
    (s.growable = true → o.result = (List.range count).map fun i => some (gap i)) ∧
    (s.growable = false → o.result =
      ((List.range (min count gaps)).map fun i => some (gap i)) ++
        List.replicate (count - gaps) none) ∧
    (∀ n, n ∈ o.set ↔ n ∈ s ∨ some n ∈ o.result) ∧
    ∀ i, i < count →
      let before := (s.allocateMany i).set
      o.result[i]? = some before.allocate.result ∧
        (s.allocateMany (i + 1)).set = before.allocate.set ∧
        before.GrowsIfFull before.allocate := by
  intro o gap gaps
  have hgap : s.plain.gap = gap := s.gap_plain
  have hgaps : s.plain.gapCount = gaps := s.gapCount_plain
  rw [← hgap, ← hgaps]
  refine ⟨⟨s.plain.strictMono_gap, fun n => ?_, fun i => s.plain.gap_lt_capacity_iff⟩,
    fun hg => ?_, fun hg => s.result_allocateMany_of_fixed hg count,
    s.contains_allocateMany count, fun i hi => ?_⟩
  · rw [← s.plain.notMem_iff_exists_gap_eq, mem_plain]
    rfl
  · exact congrArg Prod.fst (s.plain_allocateMany_eq (Or.inl hg))
  · exact ⟨s.getElem?_result_allocateMany hi, s.set_allocateMany_succ i,
      allocate_growsIfFull _⟩

/-- The last gap under the capacity, and then two positions of a word that is new. -/
example : ((⟨#[0xFFFFFFFB], true⟩ : BitSet).allocateMany 3).result = [some 2, some 32, some 33] := by
  decide +kernel

end BitSet

end PackedSet
