import PackedSet.Cursor.Basic

/-!
# Walks with several cursors

A walk works on a list of cursors, numbered from zero. A move advances one cursor or reads what is
ahead of it; a copy of a cursor joins the list as its last member. Cursors do not affect each other,
and an action on a number that no cursor has ends the walk without a result.
-/

namespace PackedSet.Cursor

inductive Move where
  | next
  | nth (count : Nat)
  | remaining
  | bounds
  | take (count : Nat)
  | rest
  | count
  | last
deriving DecidableEq

inductive Action where
  | move (cursor : Nat) (move : Move)
  | copy (cursor : Nat)
deriving DecidableEq

inductive Reading where
  | position (n : Option Nat)
  | number (n : Nat)
  | bounds (lower upper : Nat)
  | positions (ns : List Nat)
deriving DecidableEq

def step (c : Cursor) : Move → Reading × Cursor
  | .next => let (n, after) := c.next?; (.position n, after)
  | .nth count => let (n, after) := c.nth? count; (.position n, after)
  | .remaining => (.number c.remaining, c)
  | .bounds => (.bounds c.remaining c.remaining, c)
  | .take count => let (ns, after) := c.take count; (.positions ns, after)
  | .rest => let (ns, after) := c.rest; (.positions ns, after)
  | .count => let (ns, after) := c.rest; (.number ns.length, after)
  | .last => let (ns, after) := c.rest; (.position ns.getLast?, after)

def act (cursors : List Cursor) : Action → Option (Reading × List Cursor)
  | .move i m => cursors[i]?.map fun c =>
      let (reading, after) := c.step m
      (reading, cursors.set i after)
  | .copy i => cursors[i]?.map fun c => (.number cursors.length, cursors ++ [c])

def walk (cursors : List Cursor) : List Action → Option (List Reading)
  | [] => some []
  | action :: rest => do
      let (reading, after) ← act cursors action
      let readings ← walk after rest
      return reading :: readings

end PackedSet.Cursor
