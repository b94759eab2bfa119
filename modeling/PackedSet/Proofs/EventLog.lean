import PackedSet.Proofs.Capacity
import PackedSet.Proofs.Failure

/-!
# The log is an account

The events of a call are one growth for each change of the word count, from the count before it to
the count after it, and one alarm if the answer is a misuse or a lack of room, and nothing else. No
call both grows a set and fails. So the log of a session can be replayed: each growth starts from
the word count that the one before it left, and the last one leaves the count of the set.
-/

namespace PackedSet

def growths : List Nat → List Event
  | before :: after :: rest =>
      (if before = after then [] else [.grew before after]) ++ growths (after :: rest)
  | _ => []

@[simp] theorem growths_singleton (count : Nat) : growths [count] = [] := rfl

theorem growths_cons {before after : Nat} {counts : List Nat} (h : counts.head? = some after) :
    growths (before :: counts) = growths [before, after] ++ growths counts := by
  obtain ⟨rest, rfl⟩ := List.head?_eq_some_iff.1 h
  rw [growths, growths, growths_singleton, List.append_nil]

@[simp] theorem growths_pair_self (count : Nat) : growths [count, count] = [] := by
  simp [growths]

theorem growths_pair_of_lt {before after : Nat} (h : before < after) :
    growths [before, after] = [.grew before after] := by
  simp [growths, Nat.ne_of_lt h]

theorem growths_eq_nil {count : Nat} {counts : List Nat} (h : ∀ c ∈ counts, c = count) :
    growths counts = [] := by
  rw [List.eq_replicate_of_mem h]
  induction counts.length with
  | zero => rfl
  | succ k ih =>
      cases k with
      | zero => rfl
      | succ k =>
          rw [List.replicate_succ] at ih ⊢
          rw [List.replicate_succ, growths_cons List.head?_cons, growths_pair_self,
            List.nil_append, ih]

/-- The word count after a log, if each growth starts from the count that the one before it left
and goes up. -/
def replay : Nat → List Event → Option Nat
  | count, [] => some count
  | count, .grew old new :: rest => if old = count ∧ old < new then replay new rest else none
  | count, .refused _ :: rest => replay count rest
  | count, .misused _ :: rest => replay count rest

theorem replay_append (count : Nat) (front back : List Event) :
    replay count (front ++ back) = (replay count front).bind fun later => replay later back := by
  induction front generalizing count with
  | nil => rfl
  | cons event rest ih =>
      cases event with
      | grew old new =>
          rw [List.cons_append, replay, replay]
          split
          · exact ih new
          · rfl
      | refused mismatch => exact ih count
      | misused fault => exact ih count

theorem replay_growths_pair {before after : Nat} (h : before ≤ after) :
    replay before (growths [before, after]) = some after := by
  rcases Nat.eq_or_lt_of_le h with rfl | hlt
  · rw [growths_pair_self, replay]
  · rw [growths_pair_of_lt hlt, replay, if_pos ⟨rfl, hlt⟩, replay]

namespace Answer

def alarm : Answer → List Event
  | misuse fault => [.misused fault]
  | tooSmall mismatch => [.refused mismatch]
  | _ => []

theorem replay_alarm (count : Nat) (a : Answer) : replay count a.alarm = some count := by
  cases a <;> rfl

theorem grew_notMem_alarm (a : Answer) (old new : Nat) : .grew old new ∉ a.alarm := by
  cases a <;> simp [alarm]

end Answer

/-- The events of an outcome are the growths between the word counts and the alarm of its answer,
and there are not both of them. -/
structure Accounts (counts : List Nat) (o : Outcome Answer) : Prop where
  events_eq : o.events = growths counts ++ o.result.alarm
  one_kind : growths counts = [] ∨ o.result.alarm = []

namespace Accounts

variable {s : BitSet} {o : Outcome Answer}

theorem of_quiet (hcount : o.set.wordCount = s.wordCount) (hevents : o.events = o.result.alarm) :
    Accounts [s.wordCount, o.set.wordCount] o := by
  rw [hcount]
  exact ⟨by rw [growths_pair_self, List.nil_append, hevents], Or.inl (growths_pair_self _)⟩

theorem of_grew (hcount : s.wordCount < o.set.wordCount)
    (hevents : o.events = [.grew s.wordCount o.set.wordCount]) (halarm : o.result.alarm = []) :
    Accounts [s.wordCount, o.set.wordCount] o :=
  ⟨by rw [growths_pair_of_lt hcount, hevents, halarm, List.append_nil], Or.inr halarm⟩

theorem of_done {t : BitSet} (h : t.wordCount = s.wordCount) :
    Accounts [s.wordCount, t.wordCount] ((Outcome.done t).map Answer.ofFault) :=
  of_quiet (o := (Outcome.done t).map Answer.ofFault) h rfl

theorem of_misuse (s : BitSet) (fault : Fault) :
    Accounts [s.wordCount, s.wordCount] ((s.misuse fault).map Answer.ofFault) :=
  of_quiet (o := (s.misuse fault).map Answer.ofFault) rfl rfl

theorem replay_pair (h : Accounts [s.wordCount, o.set.wordCount] o)
    (hle : s.wordCount ≤ o.set.wordCount) :
    replay s.wordCount o.events = some o.set.wordCount := by
  rw [h.events_eq, replay_append, replay_growths_pair hle]
  exact Answer.replay_alarm _ _

end Accounts

namespace BitSet

variable (s : BitSet)

/-- The word counts that a set has on the way through an edit. A list of positions goes in one by
one, and several allocations follow one another. -/
def counts : Edit BitSet → List Nat
  | .extend positions => positions.inits.map fun front => (s.extend front).set.wordCount
  | .allocateMany count => (List.range (count + 1)).map fun k => (s.allocateMany k).set.wordCount
  | e => [s.wordCount, (e.apply s).set.wordCount]

theorem accounts_insert (n : Nat) :
    Accounts [s.wordCount, (s.insert n).set.wordCount] ((s.insert n).map Answer.ofFault) := by
  by_cases hn : n < s.capacity
  · rw [s.insert_of_lt hn]
    exact .of_done (s.wordCount_mark n)
  · have hle := Nat.not_lt.1 hn
    cases hg : s.growable with
    | true =>
        rw [lt_capacity_iff, Nat.not_le] at hn
        have hcount : (s.insert n).set.wordCount = leastPowerOfTwo (wordIndex n + 1) := by
          rw [s.wordCount_insert (Or.inr hg), room_of_lt hn]
        have hpower := le_leastPowerOfTwo (wordIndex n + 1)
        refine .of_grew (o := (s.insert n).map Answer.ofFault) ?_ ?_ ?_
        · rw [Outcome.set_map]
          omega
        · rw [Outcome.events_map, Outcome.set_map, hcount, s.insert_of_growable hle hg]
          rfl
        · rw [Outcome.result_map, s.result_insert (Or.inr hg)]
          rfl
    | false =>
        rw [s.insert_of_fixed hle hg]
        exact .of_misuse s _

theorem accounts_fill (n : Nat) :
    Accounts [s.wordCount, (s.fill n).set.wordCount] ((s.fill n).map Answer.ofFault) := by
  by_cases hn : s.capacity < n
  · rw [s.fill_of_capacity_lt hn]
    exact .of_misuse s _
  · have hcount := s.wordCount_fill n
    rw [s.fill_of_le (Nat.not_lt.1 hn)] at hcount ⊢
    exact .of_done hcount

/-- Something that is done in place if the guard allows it, and is a misuse if not. -/
theorem accounts_guarded {guard : Prop} [Decidable guard] {t : BitSet} {fault : Fault}
    (hcount : guard → t.wordCount = s.wordCount) :
    let o := if guard then .done t else s.misuse fault
    Accounts [s.wordCount, o.set.wordCount] (o.map Answer.ofFault) := by
  split
  · rename_i h
    exact .of_done (hcount h)
  · exact .of_misuse s fault

/-- An allocation reports what the insertion of its position reports. -/
theorem accounts_allocate :
    Accounts [s.wordCount, s.allocate.set.wordCount] (s.allocate.map Answer.position) := by
  by_cases h : s.growable = true ∨ s.firstFree? ≠ none
  · have hevents := (s.accounts_insert s.plain.leastAbsent).events_eq
    rw [Outcome.result_map, s.result_insert (s.fits_leastAbsent h)] at hevents
    rw [s.allocate_eq_insert h]
    exact ⟨hevents, Or.inr rfl⟩
  · rw [not_or, Bool.not_eq_true, not_not] at h
    rw [s.allocate_of_full h.1 h.2]
    exact .of_quiet (o := Outcome.map Answer.position ⟨none, s, []⟩) rfl rfl

/-- A result that is stored if there is room for it. -/
theorem accounts_ensure {α : Type} {required : Nat}
    {next : BitSet → Outcome (Except SizeMismatch α)} {answer : Except SizeMismatch α → Answer}
    (hcount : ∀ t, (next t).set.wordCount = t.wordCount) (hevents : ∀ t, (next t).events = [])
    (hok : ∀ t, (answer (next t).result).alarm = [])
    (herror : ∀ m, (answer (.error m)).alarm = [.refused m]) :
    Accounts [s.wordCount, ((s.ensure required).andThen next).set.wordCount]
      (((s.ensure required).andThen next).map answer) := by
  by_cases hr : required ≤ s.wordCount
  · rw [s.ensure_of_le hr, Outcome.done_andThen]
    exact .of_quiet (o := (next s).map answer) (hcount s) ((hevents s).trans (hok s).symm)
  · have hlt := Nat.not_le.1 hr
    by_cases hfit : s.Fits required
    · have hgrown := s.ensure_of_growable hlt (hfit.resolve_left hr)
      have hroom := s.wordCount_ensure_andThen hcount hfit
      have hpower := le_leastPowerOfTwo required
      rw [room_of_lt hlt] at hroom
      refine .of_grew (o := ((s.ensure required).andThen next).map answer) ?_ ?_ ?_
      · rw [Outcome.set_map]
        omega
      · rw [Outcome.events_map, Outcome.set_map, hroom, s.ensure_andThen_of_fits next hfit, hgrown]
        exact congrArg (_ ++ ·) (hevents _)
      · rw [Outcome.result_map, s.ensure_andThen_of_fits next hfit]
        exact hok _
    · rw [s.ensure_andThen_of_not_fits next hfit]
      exact .of_quiet (o := Outcome.map answer ⟨_, s, _⟩) rfl (herror _).symm

theorem counts_of_fixed (hg : s.growable = false) (e : Edit BitSet) :
    ∀ c ∈ s.counts e, c = s.wordCount := by
  intro c hc
  cases e with
  | extend positions =>
      obtain ⟨front, -, rfl⟩ := List.mem_map.1 hc
      exact wordCount_extend_of_fixed hg front
  | allocateMany count =>
      obtain ⟨k, -, rfl⟩ := List.mem_map.1 hc
      exact wordCount_allocateMany_of_fixed hg k
  | _ =>
      rcases List.mem_pair.1 hc with rfl | rfl
      · rfl
      · exact wordCount_apply_of_fixed hg _

theorem head?_counts (e : Edit BitSet) : (s.counts e).head? = some s.wordCount := by
  cases e with
  | extend positions =>
      cases positions with
      | nil => rfl
      | cons n rest =>
          rw [counts, List.inits_cons]
          rfl
  | allocateMany count =>
      rw [counts, List.range_succ_eq_map]
      rfl
  | _ => rfl

theorem counts_extend_cons {n : Nat} (h : s.Fits (wordIndex n + 1)) (rest : List Nat) :
    s.counts (.extend (n :: rest)) = s.wordCount :: (s.insert n).set.counts (.extend rest) := by
  rw [counts, List.inits_cons, List.map_cons, List.map_map]
  refine congrArg (s.wordCount :: ·) (List.map_congr_left fun front _ => ?_)
  rw [Function.comp_apply, extend_cons, Outcome.andThen_of_ok (s.result_insert h)]

theorem counts_allocateMany_succ (count : Nat) :
    s.counts (.allocateMany (count + 1)) =
      s.wordCount :: s.allocate.set.counts (.allocateMany count) := by
  rw [counts, List.range_succ_eq_map, List.map_cons, List.map_map]
  rfl

theorem events_insert {n : Nat} (h : s.Fits (wordIndex n + 1)) :
    (s.insert n).events = growths [s.wordCount, (s.insert n).set.wordCount] := by
  have hevents := (s.accounts_insert n).events_eq
  rw [Outcome.events_map, Outcome.result_map, s.result_insert h] at hevents
  exact hevents.trans (List.append_nil _)

theorem accounts_extend (positions : List Nat) :
    Accounts (s.counts (.extend positions)) ((s.extend positions).map Answer.ofFault) := by
  constructor
  · induction positions generalizing s with
    | nil => rfl
    | cons n rest ih =>
        by_cases h : s.Fits (wordIndex n + 1)
        · have hrest := ih (s.insert n).set
          rw [Outcome.events_map, Outcome.result_map] at hrest ⊢
          rw [s.counts_extend_cons h, growths_cons (head?_counts _ _), extend_cons,
            Outcome.andThen_of_ok (s.result_insert h), s.events_insert h, hrest,
            List.append_assoc]
        · have hg := (s.not_fits_wordIndex_iff.1 h).1
          -- only a fixed set refuses a position, and its word count is the same all the way
          rw [growths_eq_nil (s.counts_of_fixed hg _), extend_cons, s.insert_of_not_fits h]
          rfl
  · cases hg : s.growable with
    | true =>
        rw [Outcome.result_map, extend_of_growable hg]
        exact Or.inr rfl
    | false => exact Or.inl (growths_eq_nil (s.counts_of_fixed hg _))

example : ((expandable 0).extend [5, 40, 70]).events = [.grew 0 1, .grew 1 2, .grew 2 4] := by
  decide +kernel

theorem accounts_allocateMany (count : Nat) :
    Accounts (s.counts (.allocateMany count))
      ((s.allocateMany count).map Answer.positions) := by
  refine ⟨?_, Or.inr rfl⟩
  rw [Outcome.events_map]
  induction count generalizing s with
  | zero => rfl
  | succ count ih =>
      have hfirst : s.allocate.events = growths [s.wordCount, s.allocate.set.wordCount] :=
        s.accounts_allocate.events_eq.trans (List.append_nil _)
      rw [s.counts_allocateMany_succ, growths_cons (head?_counts _ _), allocateMany, hfirst,
        ih s.allocate.set, List.append_assoc]
      rfl

/-- Every edit: the growths on its way, and the alarm of its answer. -/
theorem accounts_apply (e : Edit BitSet) : Accounts (s.counts e) (e.apply s) := by
  cases e with
  | insert n => exact s.accounts_insert n
  | erase n => exact s.accounts_guarded fun _ => s.wordCount_unmark n
  | clear => exact Accounts.of_quiet s.wordCount_clear rfl
  | fill n => exact s.accounts_fill n
  | allocate => exact s.accounts_allocate
  | allocateMany count => exact s.accounts_allocateMany count
  | extend positions => exact s.accounts_extend positions
  | copyFrom src => exact s.accounts_guarded Eq.symm
  | inter a b =>
      exact s.accounts_ensure (fun t => t.wordCount_overwrite _) (fun _ => rfl) (fun _ => rfl)
        fun _ => rfl
  | union a b =>
      exact s.accounts_ensure (fun t => t.wordCount_overwrite _) (fun _ => rfl) (fun _ => rfl)
        fun _ => rfl
  | merge src =>
      exact s.accounts_ensure (fun t => t.wordCount_overwrite _) (fun _ => rfl) (fun _ => rfl)
        fun _ => rfl
  | meet src => exact Accounts.of_quiet (s.wordCount_meet src) rfl

theorem replay_insert (n : Nat) :
    replay s.wordCount (s.insert n).events = some (s.insert n).set.wordCount :=
  (s.accounts_insert n).replay_pair (s.wordCount_le_apply (.insert n))

theorem replay_extend (positions : List Nat) :
    replay s.wordCount (s.extend positions).events = some (s.extend positions).set.wordCount := by
  induction positions generalizing s with
  | nil => rfl
  | cons n rest ih =>
      by_cases h : s.Fits (wordIndex n + 1)
      · rw [extend_cons, Outcome.andThen_of_ok (s.result_insert h), replay_append,
          s.replay_insert n]
        exact ih (s.insert n).set
      · rw [extend_cons, s.insert_of_not_fits h]
        rfl

theorem replay_allocateMany (count : Nat) :
    replay s.wordCount (s.allocateMany count).events =
      some (s.allocateMany count).set.wordCount := by
  induction count generalizing s with
  | zero => rfl
  | succ count ih =>
      have hfirst : replay s.wordCount s.allocate.events = some s.allocate.set.wordCount :=
        s.accounts_allocate.replay_pair (s.wordCount_le_apply .allocate)
      rw [allocateMany, replay_append, hfirst]
      exact ih s.allocate.set

theorem replay_apply (e : Edit BitSet) :
    replay s.wordCount (e.apply s).events = some (e.apply s).set.wordCount := by
  have haccounts := s.accounts_apply e
  have hle := s.wordCount_le_apply e
  cases e with
  | extend positions => exact s.replay_extend positions
  | allocateMany count => exact s.replay_allocateMany count
  | _ => exact haccounts.replay_pair hle

theorem events_of_ask {q : Query BitSet} {r : Logged Answer} (h : q.ask s = some r) :
    r.events = r.result.alarm := by
  cases q with
  | test n =>
      obtain rfl := Option.some.inj h
      by_cases hn : n < s.capacity
      · rw [BitSet.test, if_pos hn]
        rfl
      · rw [BitSet.test, if_neg hn]
        rfl
  | walk actions =>
      obtain ⟨readings, -, rfl⟩ := Option.map_eq_some_iff.1 h
      rfl
  | _ =>
      obtain rfl := Option.some.inj h
      rfl

theorem replay_reply {c : Call} {r : Logged Answer} (h : s.reply c = some r) :
    replay s.wordCount r.events = some (s.after c).wordCount := by
  cases c with
  | edit e =>
      obtain rfl := Option.some.inj h
      exact s.replay_apply e
  | ask q =>
      rw [s.events_of_ask h]
      exact Answer.replay_alarm _ _

theorem replay_log (calls : List Call) :
    replay s.wordCount (s.log calls) = some (s.afterAll calls).wordCount := by
  induction calls generalizing s with
  | nil => rfl
  | cons c rest ih =>
      have hfirst : replay s.wordCount ((s.reply c).elim [] Logged.events) =
          some (s.after c).wordCount := by
        cases hr : s.reply c with
        | some r => exact s.replay_reply hr
        | none =>
            cases c with
            | edit e => cases hr
            | ask q => rfl
      rw [log, replay_append, hfirst]
      exact ih (s.after c)

theorem events_extend_of_lt {positions : List Nat} (h : ∀ n ∈ positions, n < s.capacity) :
    (s.extend positions).events = [] := by
  induction positions generalizing s with
  | nil => rfl
  | cons n rest ih =>
      have hn := h n List.mem_cons_self
      have hcapacity : (s.mark n).capacity = s.capacity :=
        congrArg (Word.width * ·) (s.wordCount_mark n)
      rw [extend_cons, s.insert_of_lt hn, Outcome.done_andThen]
      exact ih _ fun m hm => hcapacity ▸ h m (List.mem_cons_of_mem n hm)

theorem le_capacity_blank (bits : Nat) (growable : Bool) :
    bits ≤ (blank bits growable).capacity := by
  rw [capacity, wordCount_blank, wordsFor, Word.width]
  omega

end BitSet

namespace Numeral

theorem lt_length_of_mem_onePlaces {bytes : List UInt8} {n : Nat} (h : n ∈ onePlaces bytes) :
    n < bytes.length := by
  obtain ⟨⟨b, i⟩, hb, rfl⟩ := List.mem_map.1 h
  have hi := (List.mem_zipIdx (List.mem_filter.1 hb).1).2.1
  have hle : (digitsFromRight bytes).length ≤ bytes.length := by
    rw [← bytes.length_reverse]
    exact List.length_filter_le _ _
  omega

/-- A numeral is read without growth: there are as many positions as bytes at the start. -/
theorem events_read (text : String) : (read text).events = [] := by
  rw [read, readBytes]
  split
  · rfl
  · split
    · rfl
    · refine BitSet.events_extend_of_lt _ fun n hn => ?_
      exact Nat.lt_of_lt_of_le (lt_length_of_mem_onePlaces hn) (BitSet.le_capacity_blank _ true)

end Numeral

def Source.counts : Source BitSet → List Nat
  | .collect positions => (BitSet.expandable 0).counts (.extend positions)
  | _ => []

namespace BitSet

end BitSet

end PackedSet
