import PackedSet.Proofs.Cursor.Ahead

/-!
# Cursors as lists

A move reads the list of what is ahead and leaves a part of it: `onList` says which. A walk with
several cursors reads what the same walk reads on their lists, so of a set it sees no more than
the members in increasing order.
-/

namespace PackedSet.Cursor

/-- What a move reads when `ahead` is ahead, and what it leaves ahead. -/
def Move.onList (ahead : List Nat) : Move → Reading × List Nat
  | .next => (.position ahead.head?, ahead.tail)
  | .nth k => (.position ahead[k]?, ahead.drop (k + 1))
  | .remaining => (.number ahead.length, ahead)
  | .bounds => (.bounds ahead.length ahead.length, ahead)
  | .take k => (.positions (ahead.take k), ahead.drop k)
  | .rest => (.positions ahead, [])
  | .count => (.number ahead.length, [])
  | .last => (.position ahead.getLast?, [])

/-- One move: the reading of the list, the rest of the list ahead, and the same set. -/
theorem step_ahead (c : Cursor) (m : Move) :
    ((c.step m).1, (c.step m).2.ahead) = m.onList c.ahead ∧ (c.step m).2.set = c.set := by
  cases m with
  | next =>
      obtain ⟨hn, hrest, hset⟩ := c.next?_ahead
      exact ⟨Prod.ext (congrArg Reading.position hn) hrest, hset⟩
  | nth count =>
      obtain ⟨hn, hrest, hset⟩ := c.nth?_ahead count
      exact ⟨Prod.ext (congrArg Reading.position hn) hrest, hset⟩
  | remaining => exact ⟨Prod.ext (congrArg Reading.number c.remaining_eq_length) rfl, rfl⟩
  | bounds =>
      have hlength := c.remaining_eq_length
      exact ⟨Prod.ext (congrArg₂ Reading.bounds hlength hlength) rfl, rfl⟩
  | take count =>
      obtain ⟨hns, hrest, hset⟩ := c.take_ahead count
      exact ⟨Prod.ext (congrArg Reading.positions hns) hrest, hset⟩
  | rest =>
      obtain ⟨hns, hrest, hset⟩ := c.rest_ahead
      exact ⟨Prod.ext (congrArg Reading.positions hns) hrest, hset⟩
  | count =>
      obtain ⟨hns, hrest, hset⟩ := c.rest_ahead
      have hlength : c.rest.1.length = c.ahead.length := congrArg List.length hns
      exact ⟨Prod.ext (congrArg Reading.number hlength) hrest, hset⟩
  | last =>
      obtain ⟨hns, hrest, hset⟩ := c.rest_ahead
      have hn : c.rest.1.getLast? = c.ahead.getLast? := congrArg List.getLast? hns
      exact ⟨Prod.ext (congrArg Reading.position hn) hrest, hset⟩

/-- What every move keeps of a cursor is kept by an action, of copies as well. -/
theorem forall_of_act {P : Cursor → Prop} (hstep : ∀ c m, P c → P (c.step m).2)
    {cursors after : List Cursor} {action : Action} {reading : Reading}
    (h : ∀ c ∈ cursors, P c) (hact : act cursors action = some (reading, after)) :
    ∀ c ∈ after, P c := by
  cases action with
  | move i m =>
      obtain ⟨c, hi, hdone⟩ := Option.map_eq_some_iff.1 hact
      obtain rfl := congrArg Prod.snd hdone
      intro d hd
      rcases List.mem_or_eq_of_mem_set hd with hd | rfl
      · exact h d hd
      · exact hstep c m (h c (List.mem_of_getElem? hi))
  | copy i =>
      obtain ⟨c, hi, hdone⟩ := Option.map_eq_some_iff.1 hact
      obtain rfl := congrArg Prod.snd hdone
      intro d hd
      rcases List.mem_append.1 hd with hd | hd
      · exact h d hd
      · rw [List.mem_singleton.1 hd]
        exact h c (List.mem_of_getElem? hi)

section walks

variable {σ τ : Type}

/-- An action on numbered states of any kind, where `move` says what a move reads of a state and
what becomes of that state. -/
def actBy (move : σ → Move → Reading × σ) (states : List σ) : Action → Option (Reading × List σ)
  | .move i m => states[i]?.map fun c => (move c m).map id (states.set i)
  | .copy i => states[i]?.map fun c => (.number states.length, states ++ [c])

def walkBy (move : σ → Move → Reading × σ) (states : List σ) : List Action → Option (List Reading)
  | [] => some []
  | action :: rest => do
      let (reading, after) ← actBy move states action
      let readings ← walkBy move after rest
      return reading :: readings

variable {move : σ → Move → Reading × σ} {move' : τ → Move → Reading × τ} {f : σ → τ}
  (hf : ∀ c m, move' (f c) m = (move c m).map id f)
include hf

/-- If `f` carries moves to moves, it carries actions to actions. -/
theorem actBy_map (states : List σ) (action : Action) :
    actBy move' (states.map f) action =
      (actBy move states action).map (Prod.map id (List.map f)) := by
  cases action with
  | move i m =>
      rw [actBy, actBy, List.getElem?_map, Option.map_map, Option.map_map]
      refine Option.map_congr fun c _ => ?_
      rw [Function.comp_apply, Function.comp_apply, hf]
      exact Prod.ext rfl List.map_set.symm
  | copy i =>
      rw [actBy, actBy, List.getElem?_map, Option.map_map, Option.map_map]
      refine Option.map_congr fun c _ => ?_
      rw [Function.comp_apply, Function.comp_apply, List.length_map, Prod.map_apply,
        List.map_append]
      rfl

theorem walkBy_map (states : List σ) (actions : List Action) :
    walkBy move' (states.map f) actions = walkBy move states actions := by
  induction actions generalizing states with
  | nil => rfl
  | cons action rest ih =>
      rw [walkBy, walkBy, actBy_map hf]
      cases actBy move states action with
      | none => rfl
      | some done =>
          have hlater : walkBy move' (done.2.map f) rest = walkBy move done.2 rest := ih done.2
          exact congrArg (fun later => later.bind fun readings => some (done.1 :: readings)) hlater

end walks

theorem act_eq_actBy (cursors : List Cursor) (action : Action) :
    act cursors action = actBy step cursors action := by
  cases action with
  | move i m => rfl
  | copy i => rfl

theorem walk_eq_walkBy (cursors : List Cursor) (actions : List Action) :
    walk cursors actions = walkBy step cursors actions := by
  induction actions generalizing cursors with
  | nil => rfl
  | cons action rest ih =>
      rw [walk, walkBy, act_eq_actBy]
      cases actBy step cursors action with
      | none => rfl
      | some done =>
          exact congrArg (fun later => later.bind fun readings => some (done.1 :: readings))
            (ih done.2)

/-- A walk reads what it would read on the lists ahead of its cursors. -/
theorem walk_ahead (cursors : List Cursor) (actions : List Action) :
    walk cursors actions = walkBy Move.onList (cursors.map ahead) actions := by
  rw [walk_eq_walkBy]
  exact (walkBy_map (fun c m => (c.step_ahead m).1.symm) cursors actions).symm

theorem walk_cursor (s : BitSet) (actions : List Action) :
    walk [s.cursor] actions = walkBy Move.onList [s.toList] actions := by
  rw [walk_ahead, List.map_singleton, ahead_cursor]

end PackedSet.Cursor
