import PackedSet.Proofs.Checked.Update
import PackedSet.Proofs.Cursor.Lists
import PackedSet.Proofs.Cursor.Scan

/-!
# Checked cursors

A cursor reads the word under it by index, steps over zero words by index, and counts what is left
from a slice behind its own word. All of that stays inside the words: a cursor reads only while it
is under the capacity, and a skip ends at the last word or past it.
-/

namespace PackedSet

namespace Checked

variable {memory : Memory} {c : Cursor}

/-- A cursor at the front. The number of positions is computed once, here. -/
def cursor (s : BitSet) : Checked Cursor := do
  let _ ← capacity s
  return s.cursor

theorem cursor_eq {s : BitSet} (hs : memory.Holds s) : cursor s = .ok s.cursor := by
  rw [cursor, capacity_eq hs]
  rfl

def skipZero (c : Cursor) : (count i : Nat) → Checked Nat
  | 0, i => return i
  | count + 1, i => do
      let w ← readAt c.set.words i
      if w = 0 then
        let next ← add i 1
        skipZero c count next
      else return i

def look (c : Cursor) : Checked Sight := do
  let w ← readAt c.set.words c.index
  let shifted ← shiftRight w (bitOffset c.position)
  if shifted = 0 then
    let start ← add c.index 1
    let i ← skipZero c (c.set.wordCount - start) start
    let position ← mul Word.width i
    return .skip position
  else
    let n ← add c.position (Word.trailingZeros shifted)
    return .found n

variable (hc : memory.Holds c.set)
include hc

theorem wordCount_lt : c.set.wordCount < numberLimit := by
  have hlt := hc.capacity_lt
  simp only [BitSet.capacity, Word.width] at hlt
  omega

theorem skipZero_eq {count i : Nat} (h : i + count ≤ c.set.wordCount) :
    skipZero c count i = .ok (c.skipZero count i) := by
  have hlt := wordCount_lt hc
  induction count generalizing i with
  | zero => rfl
  | succ count ih =>
      rw [skipZero, readAt_eq (by omega), ok_bind, Cursor.skipZero]
      by_cases hz : c.set.wordAt i = 0
      · rw [if_pos hz, if_pos hz, add_eq (by omega), ok_bind]
        exact ih (by omega)
      · rw [if_neg hz, if_neg hz]
        rfl

theorem look_eq (hp : c.position < c.set.capacity) : look c = .ok c.look := by
  have hi : c.index < c.set.wordCount := wordIndex_lt_iff.2 hp
  have hcount := wordCount_lt hc
  have hshift : shiftRight (c.set.wordAt c.index) (bitOffset c.position) = .ok c.shifted :=
    shiftRight_eq (bitOffset_lt c.position) _
  rw [look, readAt_eq hi, ok_bind, hshift, ok_bind]
  by_cases hz : c.shifted = 0
  · -- The skip ends at the word count at the latest, so its position is the capacity at most.
    have hmul := Nat.mul_le_mul_left Word.width (c.isLeast_stops_le hp (c.isLeast_stops hi))
    rw [if_pos hz, add_eq (by omega), ok_bind, skipZero_eq hc (by omega), ok_bind,
      mul_eq (hmul.trans_lt hc.capacity_lt), ok_bind, c.look_of_shifted_eq_zero hz]
    rfl
  · have hfound := c.look_of_shifted_ne_zero hz
    have hmem := BitSet.lt_capacity_of_mem (c.look_eq_found hfound).1
    rw [if_neg hz, add_eq (hmem.trans hc.capacity_lt), ok_bind, hfound]
    rfl

omit hc

def settle (c : Cursor) : (looks : Nat) → Checked (Option (Option Nat × Cursor))
  | 0 => return if c.position < c.set.capacity then none else some (none, c)
  | looks + 1 =>
      if c.position < c.set.capacity then do
        let sight ← look c
        match sight with
        | .found n =>
            let after ← add n 1
            return some (some n, { c with position := after })
        | .skip position => settle { c with position } looks
      else return some (none, c)

theorem settle_eq (hc : memory.Holds c.set) (looks : Nat) :
    settle c looks = .ok (c.settle looks) := by
  induction looks generalizing c with
  | zero => rfl
  | succ looks ih =>
      rw [settle, Cursor.settle]
      by_cases hp : c.position < c.set.capacity
      · rw [if_pos hp, if_pos hp, look_eq hc hp, ok_bind]
        cases hl : c.look with
        | found n =>
            have hn := BitSet.lt_capacity_of_mem (c.look_eq_found hl).1
            have hadd : n + 1 < numberLimit := Nat.lt_of_le_of_lt hn hc.capacity_lt
            simp only [add_eq hadd, ok_bind, pure_eq_ok]
        | skip p => exact ih hc
      · rw [if_neg hp, if_neg hp]
        rfl

def next? (c : Cursor) : Checked (Option Nat × Cursor) := do
  let settled ← settle c c.set.wordCount
  return settled.getD (none, c)

theorem next?_eq (hc : memory.Holds c.set) : next? c = .ok c.next? := by
  rw [next?, settle_eq hc]
  rfl

def remaining (c : Cursor) : Checked Nat :=
  if c.position < c.set.capacity then do
    let w ← readAt c.set.words c.index
    let shifted ← shiftRight w (bitOffset c.position)
    let start ← add c.index 1
    let later ← sliceFrom c.set.words start
    let tail ← total later
    add (Word.ones shifted) tail
  else return 0

theorem foldl_add_ones (count : Nat) (words : List Word) :
    words.foldl (fun total w => total + Word.ones w) count =
      count + words.foldl (fun total w => total + Word.ones w) 0 := by
  induction words generalizing count with
  | nil => rfl
  | cons w rest ih =>
      rw [List.foldl_cons, List.foldl_cons, ih, ih (0 + Word.ones w), Nat.zero_add, Nat.add_assoc]

theorem remaining_eq (hc : memory.Holds c.set) : remaining c = .ok c.remaining := by
  -- The sum is bounded by what it counts: the members that are left are under the capacity.
  have hleft : c.remaining < numberLimit := by
    rw [c.remaining_eq_length]
    exact c.length_ahead_le.trans_lt hc.capacity_lt
  rw [remaining]
  by_cases hp : c.position < c.set.capacity
  · have hi : c.index < c.set.wordCount := wordIndex_lt_iff.2 hp
    have hcount := wordCount_lt hc
    have hoff := bitOffset_lt c.position
    have hstart : c.index + 1 ≤ c.set.words.size := hi
    have hlater : Word.width * (c.set.words.toList.drop (c.index + 1)).length < numberLimit := by
      have hle : (c.set.words.toList.drop (c.index + 1)).length ≤ c.set.wordCount := by
        rw [List.length_drop]
        exact Nat.sub_le _ _
      exact (Nat.mul_le_mul_left _ hle).trans_lt hc.capacity_lt
    have hsum : c.remaining =
        Word.ones (c.set.wordAt c.index >>> UInt32.ofNat (bitOffset c.position)) +
          (c.set.words.toList.drop (c.index + 1)).foldl (fun total w => total + Word.ones w) 0 := by
      rw [Cursor.remaining, if_pos hp, foldl_add_ones, Word.onesFrom_eq_ones_shiftRight hoff]
    rw [hsum] at hleft
    rw [if_pos hp, readAt_eq hi, ok_bind, shiftRight_eq hoff, ok_bind, add_eq (by omega), ok_bind,
      sliceFrom, require_of hstart, ok_bind, pure_eq_ok, ok_bind, total_eq hlater, ok_bind,
      add_eq hleft, hsum]
  · rw [Cursor.remaining, if_neg hp, if_neg hp]
    rfl

def nth? (c : Cursor) : (count : Nat) → Checked (Option Nat × Cursor)
  | 0 => next? c
  | count + 1 => do
      let first ← next? c
      match first with
      | (some _, after) => nth? after count
      | (none, after) => return (none, after)

theorem nth?_eq (hc : memory.Holds c.set) (count : Nat) : nth? c count = .ok (c.nth? count) := by
  induction count generalizing c with
  | zero => exact next?_eq hc
  | succ count ih =>
      have hset : c.next?.2.set = c.set := c.next?_ahead.2.2
      rw [nth?, next?_eq hc, ok_bind, Cursor.nth?]
      rcases hnext : c.next? with ⟨_ | n, after⟩
      · rfl
      · rw [hnext] at hset
        exact ih (hset.symm ▸ hc)

def takeOnto (taken : List Nat) (c : Cursor) : (count : Nat) → Checked (List Nat × Cursor)
  | 0 => return (taken.reverse, c)
  | count + 1 => do
      let first ← next? c
      match first with
      | (some n, after) => takeOnto (n :: taken) after count
      | (none, after) => return (taken.reverse, after)

theorem takeOnto_eq (hc : memory.Holds c.set) (taken : List Nat) (count : Nat) :
    takeOnto taken c count = .ok (Cursor.takeOnto taken c count) := by
  induction count generalizing c taken with
  | zero => rfl
  | succ count ih =>
      have hset : c.next?.2.set = c.set := c.next?_ahead.2.2
      rw [takeOnto, next?_eq hc, ok_bind, Cursor.takeOnto]
      rcases hnext : c.next? with ⟨_ | n, after⟩
      · rfl
      · rw [hnext] at hset
        exact ih (hset.symm ▸ hc) (n :: taken)

def rest (c : Cursor) : Checked (List Nat × Cursor) := takeOnto [] c (c.set.capacity + 1)

theorem rest_eq (hc : memory.Holds c.set) : rest c = .ok c.rest := takeOnto_eq hc [] _

def step (c : Cursor) : Cursor.Move → Checked (Cursor.Reading × Cursor)
  | .next => do
      let (n, after) ← next? c
      return (.position n, after)
  | .nth count => do
      let (n, after) ← nth? c count
      return (.position n, after)
  | .remaining => do
      let count ← remaining c
      return (.number count, c)
  | .bounds => do
      let count ← remaining c
      return (.bounds count count, c)
  | .take count => do
      let (ns, after) ← takeOnto [] c count
      return (.positions ns, after)
  | .rest => do
      let (ns, after) ← rest c
      return (.positions ns, after)
  | .count => do
      let (ns, after) ← rest c
      return (.number ns.length, after)
  | .last => do
      let (ns, after) ← rest c
      return (.position ns.getLast?, after)

theorem step_eq (hc : memory.Holds c.set) (m : Cursor.Move) : step c m = .ok (c.step m) := by
  cases m with
  | next => rw [step, next?_eq hc]; rfl
  | nth count => rw [step, nth?_eq hc]; rfl
  | remaining => rw [step, remaining_eq hc]; rfl
  | bounds => rw [step, remaining_eq hc]; rfl
  | take count => rw [step, takeOnto_eq hc]; rfl
  | rest => rw [step, rest_eq hc]; rfl
  | count => rw [step, rest_eq hc]; rfl
  | last => rw [step, rest_eq hc]; rfl

def act (cursors : List Cursor) :
    Cursor.Action → Checked (Option (Cursor.Reading × List Cursor))
  | .move i m =>
      match cursors[i]? with
      | some c => do
          let (reading, after) ← step c m
          return some (reading, cursors.set i after)
      | none => return none
  | .copy i => return Cursor.act cursors (.copy i)

def AllHeld (memory : Memory) (cursors : List Cursor) : Prop :=
  ∀ c ∈ cursors, memory.Holds c.set

theorem act_eq {cursors : List Cursor} (h : AllHeld memory cursors) (action : Cursor.Action) :
    act cursors action = .ok (Cursor.act cursors action) := by
  cases action with
  | move i m =>
      rw [act, Cursor.act]
      cases hi : cursors[i]? with
      | none => rfl
      | some c =>
          have hc := h c (List.mem_of_getElem? hi)
          simp only [step_eq hc, ok_bind, pure_eq_ok, Option.map_some]
  | copy i => rfl

theorem AllHeld.act {cursors : List Cursor} (h : AllHeld memory cursors) {action : Cursor.Action}
    {reading : Cursor.Reading} {after : List Cursor}
    (hact : Cursor.act cursors action = some (reading, after)) : AllHeld memory after := by
  have hstep : ∀ (c : Cursor) m, memory.Holds c.set → memory.Holds (c.step m).2.set := by
    intro c m hc
    rw [(c.step_ahead m).2]
    exact hc
  exact Cursor.forall_of_act hstep h hact

def walk (cursors : List Cursor) :
    List Cursor.Action → Checked (Option (List Cursor.Reading))
  | [] => return some []
  | action :: rest => do
      let done? ← act cursors action
      whenSome done? fun (reading, after) => do
        let readings? ← walk after rest
        return readings?.map (reading :: ·)

/-- Every cursor that a walk reaches, copies included, reads inside of its words. -/
theorem walk_eq {cursors : List Cursor} (h : AllHeld memory cursors)
    (actions : List Cursor.Action) : walk cursors actions = .ok (Cursor.walk cursors actions) := by
  induction actions generalizing cursors with
  | nil => rfl
  | cons action rest ih =>
      rw [walk, act_eq h, ok_bind]
      refine whenSome_eq fun (reading, after) hact => ?_
      simp only [ih (h.act hact), ok_bind]
      cases Cursor.walk after rest <;> rfl

end Checked

end PackedSet
