import PackedSet.Proofs.Cursor.Lists

/-!
# Cursors as places in the list of members

A place in a list is the number of its elements that are behind. Each cursor of a walk is such a
place in the increasing list of the members, and a move advances it by the elements that it has
read. The place at the end is never left, and a copy starts at the place of its source.
-/

namespace PackedSet.Cursor

/-- What a move reads at the place `i` of a list, and the place that it leaves. -/
def Move.atPlace (members : List Nat) (i : Nat) : Move → Reading × Nat
  | .next => (.position members[i]?, min (i + 1) members.length)
  | .nth k => (.position members[i + k]?, min (i + k + 1) members.length)
  | .remaining => (.number (members.length - i), i)
  | .bounds => (.bounds (members.length - i) (members.length - i), i)
  | .take k => (.positions ((members.drop i).take k), min (i + k) members.length)
  | .rest => (.positions (members.drop i), members.length)
  | .count => (.number (members.length - i), members.length)
  | .last => (.position (members.drop i).getLast?, members.length)

theorem drop_min_length (members : List Nat) (i : Nat) :
    members.drop (min i members.length) = members.drop i := by
  rcases Nat.le_total i members.length with h | h
  · rw [Nat.min_eq_left h]
  · rw [Nat.min_eq_right h, List.drop_length, List.drop_of_length_le h]

/-- A move at a place is the move on the list behind that place. -/
theorem onList_drop (members : List Nat) (i : Nat) (m : Move) :
    m.onList (members.drop i) = (m.atPlace members i).map id members.drop := by
  cases m with
  | next =>
      refine Prod.ext (congrArg Reading.position List.head?_drop) ?_
      exact List.tail_drop.trans (drop_min_length members (i + 1)).symm
  | nth k =>
      refine Prod.ext (congrArg Reading.position List.getElem?_drop) ?_
      exact List.drop_drop.trans (drop_min_length members (i + k + 1)).symm
  | remaining => exact Prod.ext (congrArg Reading.number List.length_drop) rfl
  | bounds => exact Prod.ext (congrArg₂ Reading.bounds List.length_drop List.length_drop) rfl
  | take k =>
      refine Prod.ext rfl ?_
      exact List.drop_drop.trans (drop_min_length members (i + k)).symm
  | rest => exact Prod.ext rfl members.drop_length.symm
  | count => exact Prod.ext (congrArg Reading.number List.length_drop) members.drop_length.symm
  | last => exact Prod.ext rfl members.drop_length.symm

theorem walkBy_onList_eq_atPlace (members : List Nat) (actions : List Action) :
    walkBy Move.onList [members] actions = walkBy (Move.atPlace members) [0] actions :=
  walkBy_map (onList_drop members) [0] actions

/-- Every action names a cursor that is there: one of the first `count`, or a copy made before. -/
def NamesPresent (count : Nat) : List Action → Prop
  | [] => True
  | .move i _ :: rest => i < count ∧ NamesPresent count rest
  | .copy i :: rest => i < count ∧ NamesPresent (count + 1) rest

theorem isSome_walkBy_iff {σ : Type} (move : σ → Move → Reading × σ) (states : List σ)
    (actions : List Action) :
    (walkBy move states actions).isSome ↔ NamesPresent states.length actions := by
  induction actions generalizing states with
  | nil => exact iff_of_true rfl trivial
  | cons action rest ih =>
      have hbind : (walkBy move states (action :: rest)).isSome ↔
          ∃ done, actBy move states action = some done ∧ (walkBy move done.2 rest).isSome := by
        rw [walkBy]
        cases actBy move states action with
        | none => simp
        | some done => cases h : walkBy move done.2 rest <;> simp [h]
      rw [hbind]
      cases action with
      | move i m =>
          rw [NamesPresent]
          by_cases hi : i < states.length
          · simp [actBy, hi, ih]
          · simp [actBy, hi]
      | copy i =>
          rw [NamesPresent]
          by_cases hi : i < states.length
          · simp [actBy, hi, ih]
          · simp [actBy, hi]

/-- A cursor that has no next member never has one again, whatever move comes in between. -/
theorem next?_step_of_next?_eq_none (c : Cursor) (h : c.next?.1 = none) (m : Move) :
    (c.step m).2.next?.1 = none := by
  have hnil : c.ahead = [] := List.head?_eq_none_iff.1 (c.next?_ahead.1.symm.trans h)
  have hafter : (c.step m).2.ahead = [] := by
    have hstep : (c.step m).2.ahead = (m.onList c.ahead).2 := congrArg Prod.snd (c.step_ahead m).1
    rw [hstep, hnil]
    cases m <;> simp [Move.onList]
  rw [(c.step m).2.next?_ahead.1, hafter, List.head?_nil]

def afterMoves (c : Cursor) (moves : List Move) : Cursor :=
  moves.foldl (fun current m => (current.step m).2) c

theorem next?_afterMoves_of_next?_eq_none (c : Cursor) (h : c.next?.1 = none)
    (moves : List Move) : (c.afterMoves moves).next?.1 = none := by
  induction moves generalizing c with
  | nil => exact h
  | cons m rest ih => exact ih (c.step m).2 (c.next?_step_of_next?_eq_none h m)

/-- A walk over a set reads what places in the increasing list of its members read, the first one
at the start. It has a result exactly if every action names a cursor that is there, and an
exhausted cursor stays exhausted. -/
theorem walk_reads_places (s : BitSet) (actions : List Action) :
    walk [s.cursor] actions = walkBy (Move.atPlace s.toList) [0] actions ∧
      ((walk [s.cursor] actions).isSome ↔ NamesPresent 1 actions) ∧
      (∀ c : Cursor, c.next?.1 = none → ∀ moves, (c.afterMoves moves).next?.1 = none) ∧
      s.toList.Pairwise (· < ·) ∧ ∀ n, n ∈ s.toList ↔ s.contains n = true := by
  refine ⟨?_, ?_, next?_afterMoves_of_next?_eq_none, s.pairwise_toList, fun n => s.mem_toList⟩
  · rw [walk_cursor, walkBy_onList_eq_atPlace]
  · rw [walk_cursor]
    exact isSome_walkBy_iff _ _ _

/-- A copy goes its own way from the place of its source. -/
theorem walk_reads_places_copied :
    let s : BitSet := ⟨#[5, 0, 1], false⟩
    let script : List Action := [.move 0 .next, .copy 0, .move 0 (.nth 1), .move 1 (.take 1),
      .move 0 .next, .move 1 .last]
    let readings : List Reading := [.position (some 0), .number 1, .position (some 64),
      .positions [2], .position none, .position (some 64)]
    let exhausted := s.cursor.rest.2
    walk [s.cursor] script = some readings ∧ NamesPresent 1 script ∧
      exhausted.next?.1 = none ∧ (exhausted.afterMoves [.nth 3, .bounds]).next?.1 = none := by
  intro s script readings exhausted
  obtain ⟨hwalk, hnames, hstays, -⟩ := walk_reads_places s script
  have hread : walk [s.cursor] script = some readings := hwalk.trans (by decide +kernel)
  have hnone : exhausted.next?.1 = none := by decide +kernel
  exact ⟨hread, hnames.1 (hread ▸ rfl), hnone, hstays exhausted hnone [.nth 3, .bounds]⟩

end PackedSet.Cursor
