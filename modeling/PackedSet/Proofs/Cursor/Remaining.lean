import PackedSet.Proofs.Cursor.Places

/-!
# The exact count of what is left

`remaining` counts ones in words, and `next?` scans words for the next member. The two agree at
every cursor that a walk can reach, in the middle of a word and at the end: as many calls as are
counted find a member, and after that no call does. Each member that is found lowers the count by
one.
-/

namespace PackedSet.Cursor

def nexts (c : Cursor) : (calls : Nat) → List (Option Nat)
  | 0 => []
  | calls + 1 => c.next?.1 :: nexts c.next?.2 calls

def afterActions (cursors : List Cursor) : List Action → Option (List Cursor)
  | [] => some cursors
  | action :: rest => do
      let (_, after) ← act cursors action
      afterActions after rest

/-- The count of a cursor is the number of members that calls find before the first one that finds
none, and each call that finds one lowers it. -/
structure ExactlySized (c : Cursor) : Prop where
  found : ∀ calls, ((c.nexts calls).takeWhile Option.isSome).length = min calls c.remaining
  bounds : c.step .bounds = (.bounds c.remaining c.remaining, c)
  lowered : ∀ n, c.next?.1 = some n → c.next?.2.remaining + 1 = c.remaining
  zero_iff : c.remaining = 0 ↔ c.next?.1 = none

variable (c : Cursor)

theorem remaining_next? : c.next?.2.remaining = c.remaining - 1 := by
  rw [remaining_eq_length, remaining_eq_length, c.next?_ahead.2.1, List.length_tail]

theorem next?_eq_none_iff : c.next?.1 = none ↔ c.remaining = 0 := by
  rw [remaining_eq_length, c.next?_ahead.1, List.head?_eq_none_iff, List.length_eq_zero_iff]

theorem remaining_of_next?_eq_some {n : Nat} (h : c.next?.1 = some n) :
    c.next?.2.remaining + 1 = c.remaining := by
  have hpos : c.remaining ≠ 0 := by
    intro hzero
    rw [c.next?_eq_none_iff.2 hzero] at h
    cases h
  have hnext := c.remaining_next?
  omega

theorem length_takeWhile_nexts (calls : Nat) :
    ((c.nexts calls).takeWhile Option.isSome).length = min calls c.remaining := by
  induction calls generalizing c with
  | zero => simp [nexts]
  | succ calls ih =>
      rw [nexts]
      cases hnext : c.next?.1 with
      | none =>
          have hzero := c.next?_eq_none_iff.1 hnext
          simp [hzero]
      | some n =>
          have hlower := c.remaining_of_next?_eq_some hnext
          rw [List.takeWhile_cons_of_pos (by simp), List.length_cons, ih]
          omega

theorem exactlySized : c.ExactlySized where
  found := c.length_takeWhile_nexts
  bounds := rfl
  lowered _ hn := c.remaining_of_next?_eq_some hn
  zero_iff := c.next?_eq_none_iff.symm

theorem remaining_cursor (s : BitSet) : s.cursor.remaining = s.size := by
  rw [remaining_eq_length, ahead_cursor, s.size_eq_length_toList]

theorem ahead_step_suffix (m : Move) : (c.step m).2.ahead <:+ c.ahead := by
  have hstep : (c.step m).2.ahead = (m.onList c.ahead).2 := congrArg Prod.snd (c.step_ahead m).1
  rw [hstep]
  cases m with
  | next => exact List.tail_suffix _
  | nth k => exact List.drop_suffix _ _
  | remaining => exact List.suffix_rfl
  | bounds => exact List.suffix_rfl
  | take k => exact List.drop_suffix _ _
  | rest => exact List.nil_suffix
  | count => exact List.nil_suffix
  | last => exact List.nil_suffix

theorem forall_of_afterActions {P : Cursor → Prop} (hstep : ∀ c m, P c → P (c.step m).2)
    {cursors after : List Cursor} {actions : List Action} (h : ∀ c ∈ cursors, P c)
    (hrun : afterActions cursors actions = some after) : ∀ c ∈ after, P c := by
  induction actions generalizing cursors with
  | nil =>
      obtain rfl := Option.some.inj hrun
      exact h
  | cons action rest ih =>
      obtain ⟨⟨reading, between⟩, hact, hrest⟩ := Option.bind_eq_some_iff.1 hrun
      exact ih (forall_of_act hstep h hact) hrest

/-- A walk leaves cursors exactly if it has readings. -/
theorem isSome_afterActions (cursors : List Cursor) (actions : List Action) :
    (afterActions cursors actions).isSome = (walk cursors actions).isSome := by
  induction actions generalizing cursors with
  | nil => rfl
  | cons action rest ih =>
      rw [afterActions, walk]
      cases act cursors action with
      | none => rfl
      | some done =>
          have hrest := ih done.2
          simp only [Option.bind_eq_bind, Option.bind_some]
          rw [hrest]
          cases walk done.2 rest <;> rfl

/-- A walk of moves and copies leaves cursors on its set that have a part of the members still
ahead, and each of them counts exactly. Before the walk, the count is the size of the set. -/
theorem walk_counts_exactly (s : BitSet) (actions : List Action) (h : NamesPresent 1 actions) :
    s.cursor.remaining = s.size ∧
      ∃ cursors, afterActions [s.cursor] actions = some cursors ∧
        ∀ c ∈ cursors, c.set = s ∧ c.remaining ≤ s.size ∧ c.ExactlySized := by
  have hsome : (afterActions [s.cursor] actions).isSome := by
    rw [isSome_afterActions, walk_cursor, isSome_walkBy_iff]
    exact h
  obtain ⟨cursors, hrun⟩ := Option.isSome_iff_exists.1 hsome
  have hstep : ∀ (c : Cursor) m, c.set = s ∧ c.ahead <:+ s.toList →
      (c.step m).2.set = s ∧ (c.step m).2.ahead <:+ s.toList := by
    intro c m hc
    exact ⟨(c.step_ahead m).2.trans hc.1, (c.ahead_step_suffix m).trans hc.2⟩
  have hstart : ∀ c ∈ [s.cursor], c.set = s ∧ c.ahead <:+ s.toList := by
    intro c hc
    rw [List.mem_singleton.1 hc, ahead_cursor]
    exact ⟨rfl, List.suffix_rfl⟩
  refine ⟨remaining_cursor s, cursors, hrun, fun c hc => ?_⟩
  obtain ⟨hset, hahead⟩ := forall_of_afterActions hstep hstart hrun c hc
  have hle := hahead.length_le
  rw [← remaining_eq_length, ← s.size_eq_length_toList] at hle
  exact ⟨hset, hle, c.exactlySized⟩

/-- The first cursor stands behind the last bit of a word, its copy behind the first. -/
theorem walk_counts_exactly_copied :
    let s : BitSet := ⟨#[0x80000001, 0, 6], false⟩
    let script : List Action := [.move 0 .next, .copy 0, .move 0 (.nth 0)]
    NamesPresent 1 script ∧ s.cursor.remaining = 4 ∧
      ∃ cursors, afterActions [s.cursor] script = some cursors ∧
        cursors.map remaining = [2, 3] ∧ ∀ c ∈ cursors, c.set = s ∧ c.ExactlySized := by
  intro s script
  have hnames : NamesPresent 1 script := by simp [script, NamesPresent]
  obtain ⟨hsize, cursors, hrun, hcursors⟩ := walk_counts_exactly s script hnames
  have hcounts : (afterActions [s.cursor] script).map (List.map remaining) = some [2, 3] := by
    decide +kernel
  rw [hrun] at hcounts
  refine ⟨hnames, hsize.trans (by decide +kernel), cursors, hrun, Option.some.inj hcounts, ?_⟩
  intro c hc
  obtain ⟨hset, -, hexact⟩ := hcursors c hc
  exact ⟨hset, hexact⟩

end PackedSet.Cursor
