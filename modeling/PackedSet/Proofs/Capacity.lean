import PackedSet.Proofs.Session
import Mathlib.Data.List.TakeWhile

/-!
# The capacity law

Each call on a set demands words: a position demands the word that holds it, a result of a set
operation the words up to its last non-zero one, an allocation from a full set one word more than
there are, and everything else none. The word count of a growable set after a session is the room
for its largest demand; in which order the demands came and which calls made them is of no account.
-/

namespace PackedSet

/-- One more than the index of the last word under `count` that is not zero, `0` if there is
none. -/
def lastWord (count : Nat) (f : Nat → Word) : Nat :=
  ((Finset.range count).filter fun i => f i ≠ 0).sup (· + 1)

theorem lastWord_le_iff {count : Nat} {f : Nat → Word} (hf : ∀ i, count ≤ i → f i = 0) {k : Nat} :
    lastWord count f ≤ k ↔ ∀ i, k ≤ i → f i = 0 := by
  rw [lastWord, Finset.sup_le_iff]
  constructor
  · intro h i hi
    by_contra hne
    have hlt : i < count := Nat.not_le.1 fun hc => hne (hf i hc)
    have := h i (Finset.mem_filter.2 ⟨Finset.mem_range.2 hlt, hne⟩)
    omega
  · intro h i hi
    have hne := (Finset.mem_filter.1 hi).2
    exact Nat.succ_le_of_lt (Nat.not_le.1 fun hk => hne (h i hk))

namespace BitSet

variable (s : BitSet)

def allocateDemand : List Nat :=
  if ∀ n, n < s.capacity → n ∈ s then [s.wordCount + 1] else []

def allocateDemands (s : BitSet) : (count : Nat) → List Nat
  | 0 => []
  | count + 1 => s.allocateDemand ++ allocateDemands s.allocate.set count

/-- The demands of an edit in words. A position that a fixed set refuses demands nothing, and
neither do those that stand after it in a list. -/
def demands : Edit BitSet → List Nat
  | .insert n => if s.growable = true ∨ n < s.capacity then [wordIndex n + 1] else []
  | .extend positions =>
      (positions.takeWhile fun n => s.growable || decide (n < s.capacity)).map (wordIndex · + 1)
  | .allocate => s.allocateDemand
  | .allocateMany count => s.allocateDemands count
  | .inter a b =>
      [lastWord (max a.wordCount b.wordCount) fun i => a.wordAt i &&& b.wordAt i]
  | .union a b =>
      [lastWord (max a.wordCount b.wordCount) fun i => a.wordAt i ||| b.wordAt i]
  | .merge src => [lastWord src.wordCount src.wordAt]
  | .erase _ => []
  | .clear => []
  | .fill _ => []
  | .copyFrom _ => []
  | .meet _ => []

def sessionDemands (s : BitSet) : List Call → List Nat
  | [] => []
  | .edit e :: rest => s.demands e ++ sessionDemands (s.after (.edit e)) rest
  | .ask q :: rest => sessionDemands (s.after (.ask q)) rest

theorem extent_eq_lastWord : s.extent = lastWord s.wordCount s.wordAt := by
  refine eq_of_forall_ge_iff fun k => ?_
  rw [extent_le_iff, lastWord_le_iff fun i hi => s.wordAt_of_wordCount_le hi]

theorem commonExtent_eq_lastWord (a b : BitSet) : commonExtent a b =
    lastWord (max a.wordCount b.wordCount) fun i => a.wordAt i &&& b.wordAt i := by
  refine eq_of_forall_ge_iff fun k => ?_
  rw [commonExtent_le_iff, lastWord_le_iff]
  intro i hi
  rw [a.wordAt_of_wordCount_le (Nat.le_trans (Nat.le_max_left _ _) hi)]
  exact UInt32.zero_and

theorem max_extent_eq_lastWord (a b : BitSet) : max a.extent b.extent =
    lastWord (max a.wordCount b.wordCount) fun i => a.wordAt i ||| b.wordAt i := by
  refine eq_of_forall_ge_iff fun k => ?_
  rw [Nat.max_le, extent_le_iff, extent_le_iff, lastWord_le_iff, ← forall_and]
  · refine forall_congr' fun i => ?_
    rw [← imp_and, UInt32.or_eq_zero_iff]
  · intro i hi
    rw [a.wordAt_of_wordCount_le (Nat.le_trans (Nat.le_max_left _ _) hi),
      b.wordAt_of_wordCount_le (Nat.le_trans (Nat.le_max_right _ _) hi)]
    exact UInt32.or_zero

section growable

variable {s : BitSet} (hg : s.growable = true)
include hg

theorem fits_of_growable (required : Nat) : s.Fits required := Or.inr hg

theorem wordCount_extend_of_growable (positions : List Nat) :
    (s.extend positions).set.wordCount =
      room s.wordCount (largest (positions.map (wordIndex · + 1))) := by
  induction positions generalizing s with
  | nil => exact (room_zero _).symm
  | cons n rest ih =>
      have hfit := fits_of_growable hg (wordIndex n + 1)
      rw [extend_cons, Outcome.andThen_of_ok (s.result_insert hfit), List.map_cons, largest_cons,
        ← room_room, ← s.wordCount_insert hfit]
      exact ih ((s.growable_insert n).trans hg)

theorem wordCount_allocate_of_growable :
    s.allocate.set.wordCount = room s.wordCount (largest s.allocateDemand) := by
  rw [s.allocate_eq_insert (Or.inl hg), allocateDemand]
  cases hf : s.firstFree? with
  | none =>
      have hfit := fits_of_growable hg (wordIndex s.capacity + 1)
      rw [if_pos (s.firstFree?_eq_none_iff.1 hf), s.leastAbsent_of_full hf,
        s.wordCount_insert hfit, wordIndex_capacity, largest_singleton]
  | some n =>
      obtain ⟨hlt, hfree, -⟩ := s.firstFree?_eq_some_iff.1 hf
      rw [if_neg fun hfull => hfree (hfull n hlt), ← s.firstFree?_eq_leastAbsent hf,
        s.insert_of_lt hlt, largest_nil, room_zero]
      exact s.wordCount_mark n

theorem wordCount_allocateMany_of_growable (count : Nat) :
    (s.allocateMany count).set.wordCount =
      room s.wordCount (largest (s.allocateDemands count)) := by
  induction count generalizing s with
  | zero => exact (room_zero _).symm
  | succ count ih =>
      have hlater := ih (s.growable_allocate.trans hg)
      have hfirst := wordCount_allocate_of_growable hg
      rw [hfirst, room_room, ← largest_append] at hlater
      exact hlater

theorem wordCount_apply_of_growable (e : Edit BitSet) :
    (e.apply s).set.wordCount = room s.wordCount (largest (s.demands e)) := by
  have hfit := fits_of_growable hg
  cases e with
  | insert n =>
      rw [demands, if_pos (Or.inl hg), largest_singleton]
      exact s.wordCount_insert (hfit _)
  | erase n => exact (s.wordCount_erase n).trans (room_zero _).symm
  | clear => exact s.wordCount_clear.trans (room_zero _).symm
  | fill n => exact (s.wordCount_fill n).trans (room_zero _).symm
  | allocate => exact wordCount_allocate_of_growable hg
  | allocateMany count => exact wordCount_allocateMany_of_growable hg count
  | extend positions =>
      have hall : (positions.takeWhile fun n => s.growable || decide (n < s.capacity)) =
          positions := List.takeWhile_eq_self_iff.2 fun n _ => by rw [hg, Bool.true_or]
      rw [demands, hall]
      exact wordCount_extend_of_growable hg positions
  | copyFrom src => exact (s.wordCount_copyFrom src).trans (room_zero _).symm
  | inter a b =>
      rw [demands, ← commonExtent_eq_lastWord, largest_singleton]
      exact s.wordCount_inter (hfit _)
  | union a b =>
      rw [demands, ← max_extent_eq_lastWord, largest_singleton]
      exact s.wordCount_union (hfit _)
  | merge src =>
      rw [demands, ← extent_eq_lastWord, largest_singleton]
      exact s.wordCount_merge (hfit _)
  | meet src => exact (s.wordCount_meet src).trans (room_zero _).symm

theorem wordCount_afterAll_of_growable (calls : List Call) :
    (s.afterAll calls).wordCount = room s.wordCount (largest (s.sessionDemands calls)) := by
  induction calls generalizing s with
  | nil => exact (room_zero _).symm
  | cons c rest ih =>
      have hlater := ih ((s.growable_after c).trans hg)
      cases c with
      | edit e =>
          rw [sessionDemands, largest_append, ← room_room, ← wordCount_apply_of_growable hg e]
          exact hlater
      | ask q => exact hlater

end growable

theorem wordCount_le_apply (e : Edit BitSet) : s.wordCount ≤ (e.apply s).set.wordCount := by
  cases hg : s.growable with
  | false => exact Nat.le_of_eq (wordCount_apply_of_fixed hg e).symm
  | true =>
      rw [wordCount_apply_of_growable hg e]
      exact count_le_room _ _

/-- The word count after a session. A fixed set keeps its own. A growable set keeps it while no
demand exceeds it, and otherwise has the least power of two at or above the largest demand. It is
a function of the first word count and of the largest demand, and never goes down. -/
theorem wordCount_session (calls : List Call) :
    let t := s.afterAll calls
    let most := largest (s.sessionDemands calls)
    t.growable = s.growable ∧
      (s.growable = false → t.wordCount = s.wordCount) ∧
      (s.growable = true →
        t.wordCount = room s.wordCount most ∧
        (most ≤ s.wordCount → t.wordCount = s.wordCount) ∧
        (s.wordCount < most → IsLeast {p | most ≤ p ∧ p.isPowerOfTwo} t.wordCount)) ∧
      s.wordCount ≤ t.wordCount := by
  intro t most
  refine ⟨s.growable_afterAll calls, fun hg => wordCount_afterAll_of_fixed hg calls,
    fun hg => ?_, ?_⟩
  · have hroom : t.wordCount = room s.wordCount most := wordCount_afterAll_of_growable hg calls
    refine ⟨hroom, fun hle => hroom.trans (room_of_le hle), fun hlt => ?_⟩
    rw [hroom, room_of_lt hlt]
    exact isLeast_leastPowerOfTwo most
  · cases hg : s.growable with
    | false => exact Nat.le_of_eq (wordCount_afterAll_of_fixed hg calls).symm
    | true => exact (wordCount_afterAll_of_growable hg calls).symm ▸ count_le_room _ _

end BitSet

end PackedSet
