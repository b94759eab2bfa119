import PackedSet.Proofs.EventLog
import Mathlib.Algebra.Ring.Nat

/-!
# The cost of growth

Each growth copies the words that a set has, so the growths of a session cost as many words as
their old counts add up to. The log shows that they climb: each one starts at the count where the
one before it ended, and ends at a greater power of two. From the second growth on a step at least
doubles the count, so there are no more growths than binary digits in the last count, and all of
them together copy fewer words than the set has in the end.
-/

namespace PackedSet

theorem two_mul_le_of_isPowerOfTwo {a b : Nat} (ha : a.isPowerOfTwo) (hb : b.isPowerOfTwo)
    (h : a < b) : 2 * a ≤ b := by
  obtain ⟨i, rfl⟩ := ha
  obtain ⟨j, rfl⟩ := hb
  have hij : i < j := (Nat.pow_lt_pow_iff_right (by omega)).1 h
  have hpow : 2 ^ (i + 1) ≤ 2 ^ j := Nat.pow_le_pow_right (by omega) hij
  rw [Nat.pow_succ] at hpow
  omega

def Event.growth? : Event → Option (Nat × Nat)
  | .grew old new => some (old, new)
  | .refused _ => none
  | .misused _ => none

/-- Growths that lead from the count `first` to the count `last`: each starts where the one before
it ended, and ends at a greater power of two. -/
inductive Climbs : (first : Nat) → List (Nat × Nat) → (last : Nat) → Prop
  | stay (count : Nat) : Climbs count [] count
  | grow {old new last : Nat} {rest : List (Nat × Nat)} (hlt : old < new)
      (hpower : new.isPowerOfTwo) (hrest : Climbs new rest last) :
      Climbs old ((old, new) :: rest) last

namespace Climbs

variable {first last : Nat} {growths : List (Nat × Nat)}

theorem isPowerOfTwo (h : Climbs first growths last) : ∀ g ∈ growths, g.2.isPowerOfTwo := by
  induction h with
  | stay count => simp
  | grow hlt hpower hrest ih => simpa [hpower] using ih

theorem lt_new (h : Climbs first growths last) : ∀ g ∈ growths, first < g.2 := by
  induction h with
  | stay count => simp
  | grow hlt hpower hrest ih =>
      intro g hg
      rcases List.mem_cons.1 hg with rfl | hg
      · exact hlt
      · exact hlt.trans (ih g hg)

theorem pairwise_new (h : Climbs first growths last) :
    (growths.map Prod.snd).Pairwise (· < ·) := by
  induction h with
  | stay count => simp
  | grow hlt hpower hrest ih =>
      rw [List.map_cons, List.pairwise_cons]
      refine ⟨fun new hnew => ?_, ih⟩
      obtain ⟨g, hg, rfl⟩ := List.mem_map.1 hnew
      exact hrest.lt_new g hg

/-- From a power of two on, every growth at least doubles the count. -/
theorem doubles (h : Climbs first growths last) (hfirst : first.isPowerOfTwo) :
    2 ^ growths.length * first ≤ last := by
  induction h with
  | stay count => simp
  | @grow old new last rest hlt hpower hrest ih =>
      have hdouble := two_mul_le_of_isPowerOfTwo hfirst hpower hlt
      have hmul := Nat.mul_le_mul_left (2 ^ rest.length) hdouble
      have hlater := ih hpower
      rw [List.length_cons, Nat.pow_succ, Nat.mul_assoc]
      omega

/-- From a power of two on, what is copied and the first count together fit into the last one. -/
theorem sum_old_add_le (h : Climbs first growths last) (hfirst : first.isPowerOfTwo) :
    (growths.map Prod.fst).sum + first ≤ last := by
  induction h with
  | stay count => simp
  | grow hlt hpower hrest ih =>
      have hdouble := two_mul_le_of_isPowerOfTwo hfirst hpower hlt
      have hlater := ih hpower
      rw [List.map_cons, List.sum_cons]
      omega

/-- The first count may be any number, but the first growth already ends at a power of two. -/
theorem amortised (h : Climbs first growths last) (hne : growths ≠ []) :
    growths.length ≤ last.log2 + 1 ∧ (growths.map Prod.fst).sum < last := by
  cases h with
  | stay => exact absurd rfl hne
  | @grow _ new _ rest hlt hpower hrest =>
      have hdoubles := hrest.doubles hpower
      have hsum := hrest.sum_old_add_le hpower
      have hpos : 0 < 2 ^ rest.length := Nat.two_pow_pos _
      have hpow : 2 ^ rest.length ≤ last := by
        have := Nat.le_mul_of_pos_right (2 ^ rest.length) (show 0 < new by omega)
        omega
      have hlog : rest.length ≤ last.log2 := (Nat.le_log2 (by omega)).2 hpow
      rw [List.length_cons, List.map_cons, List.sum_cons]
      omega

end Climbs

theorem lt_of_grew_mem {count last old new : Nat} {events : List Event}
    (hreplay : replay count events = some last) (h : .grew old new ∈ events) : old < new := by
  induction events generalizing count with
  | nil => simp at h
  | cons event rest ih =>
      cases event with
      | grew old' new' =>
          rw [replay] at hreplay
          split_ifs at hreplay with hstep
          rcases List.mem_cons.1 h with heq | h
          · cases heq
            exact hstep.2
          · exact ih hreplay h
      | refused mismatch => exact ih hreplay (by simpa using h)
      | misused fault => exact ih hreplay (by simpa using h)

theorem climbs_of_replay {count last : Nat} {events : List Event}
    (hreplay : replay count events = some last)
    (hpower : ∀ old new, .grew old new ∈ events → new.isPowerOfTwo) :
    Climbs count (events.filterMap Event.growth?) last := by
  induction events generalizing count with
  | nil =>
      obtain rfl := Option.some.inj hreplay
      exact .stay count
  | cons event rest ih =>
      have hrest : ∀ old new, .grew old new ∈ rest → new.isPowerOfTwo := fun old new h =>
        hpower old new (List.mem_cons_of_mem event h)
      cases event with
      | grew old new =>
          rw [replay] at hreplay
          split_ifs at hreplay with hstep
          obtain ⟨rfl, hlt⟩ := hstep
          exact .grow hlt (hpower old new List.mem_cons_self) (ih hreplay hrest)
      | refused mismatch => exact ih hreplay hrest
      | misused fault => exact ih hreplay hrest

theorem mem_of_grew_mem_growths {old new : Nat} {counts : List Nat}
    (h : .grew old new ∈ growths counts) : old ∈ counts ∧ new ∈ counts := by
  fun_induction growths counts with
  | case1 before after rest ih =>
      rcases List.mem_append.1 h with h | h
      · split_ifs at h with heq
        · exact absurd h List.not_mem_nil
        · cases List.mem_singleton.1 h
          exact ⟨List.mem_cons_self, List.mem_cons_of_mem _ List.mem_cons_self⟩
      · obtain ⟨hold, hnew⟩ := ih h
        exact ⟨List.mem_cons_of_mem _ hold, List.mem_cons_of_mem _ hnew⟩
  | case2 => simp at h

namespace BitSet

variable (s : BitSet)

/-- Every word count on the way through an edit is the room for some demand. -/
theorem exists_room_of_mem_counts {e : Edit BitSet} {count : Nat} (h : count ∈ s.counts e) :
    ∃ demand, count = room s.wordCount demand := by
  cases hg : s.growable with
  | false => exact ⟨0, (s.counts_of_fixed hg e count h).trans (room_zero _).symm⟩
  | true =>
      cases e with
      | extend positions =>
          obtain ⟨front, -, rfl⟩ := List.mem_map.1 h
          exact ⟨_, wordCount_extend_of_growable hg front⟩
      | allocateMany times =>
          obtain ⟨k, -, rfl⟩ := List.mem_map.1 h
          exact ⟨_, wordCount_allocateMany_of_growable hg k⟩
      | _ =>
          rcases List.mem_pair.1 h with rfl | rfl
          · exact ⟨0, (room_zero _).symm⟩
          · exact ⟨_, wordCount_apply_of_growable hg _⟩

theorem isPowerOfTwo_of_grew_mem_apply {e : Edit BitSet} {old new : Nat}
    (h : .grew old new ∈ (e.apply s).events) : new.isPowerOfTwo := by
  have hlt := lt_of_grew_mem (s.replay_apply e) h
  rw [(s.accounts_apply e).events_eq, List.mem_append] at h
  obtain ⟨hold, hnew⟩ := mem_of_grew_mem_growths (h.resolve_right (Answer.grew_notMem_alarm _ _ _))
  obtain ⟨earlier, rfl⟩ := s.exists_room_of_mem_counts hold
  obtain ⟨demand, rfl⟩ := s.exists_room_of_mem_counts hnew
  have hle := count_le_room s.wordCount earlier
  have hdemand : s.wordCount < demand := lt_room_iff.1 (by omega)
  rw [room_of_lt hdemand]
  exact isPowerOfTwo_leastPowerOfTwo demand

theorem isPowerOfTwo_of_grew_mem_log {calls : List Call} {old new : Nat}
    (h : .grew old new ∈ s.log calls) : new.isPowerOfTwo := by
  induction calls generalizing s with
  | nil => simp [log] at h
  | cons c rest ih =>
      rw [log, List.mem_append] at h
      rcases h with h | h
      · cases c with
        | edit e => exact s.isPowerOfTwo_of_grew_mem_apply h
        | ask q =>
            cases hr : s.reply (.ask q) with
            | none => simp [hr] at h
            | some r =>
                rw [hr, Option.elim_some, s.events_of_ask hr] at h
                exact absurd h (Answer.grew_notMem_alarm _ _ _)
      · exact ih _ h

theorem climbs_log (calls : List Call) :
    Climbs s.wordCount ((s.log calls).filterMap Event.growth?) (s.afterAll calls).wordCount :=
  climbs_of_replay (s.replay_log calls) fun _ _ h => s.isPowerOfTwo_of_grew_mem_log h

/-- The growths of a session lead to greater and greater powers of two, whatever word count they
start from and whichever calls caused them. A session that ends with `count` words after at least
one growth has at most `log2 count + 1` of them, and they have copied fewer than `count` words in
total. -/
theorem growth_is_amortised (s : BitSet) (calls : List Call) :
    let grown := (s.log calls).filterMap Event.growth?
    let count := (s.afterAll calls).wordCount
    (grown.map Prod.snd).Pairwise (· < ·) ∧ (∀ g ∈ grown, g.2.isPowerOfTwo) ∧
      (grown ≠ [] → grown.length ≤ count.log2 + 1 ∧ (grown.map Prod.fst).sum < count) := by
  intro grown count
  have hclimb : Climbs s.wordCount grown count := s.climbs_log calls
  exact ⟨hclimb.pairwise_new, hclimb.isPowerOfTwo, hclimb.amortised⟩

/-- Three words are no power of two, and the second growth skips one. -/
theorem growth_is_amortised_skipping :
    let s : BitSet := ⟨#[0, 0, 1], true⟩
    let calls : List Call := [.edit (.extend [5, 96]), .ask .size, .edit (.insert 400)]
    let grown := (s.log calls).filterMap Event.growth?
    grown = [(3, 4), (4, 16)] ∧ grown.length ≤ Nat.log2 16 + 1 ∧ (grown.map Prod.fst).sum < 16 := by
  intro s calls grown
  have hgrown : grown = [(3, 4), (4, 16)] := by decide +kernel
  have hcount : (s.afterAll calls).wordCount = 16 := by decide +kernel
  obtain ⟨-, -, hcost⟩ := growth_is_amortised s calls
  rw [hcount] at hcost
  exact ⟨hgrown, hcost (by simp [grown, hgrown])⟩

end BitSet

end PackedSet
