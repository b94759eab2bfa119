import PackedSet.BitSet.Basic

/-!
# Cursors

A `Cursor` walks the members of a set in increasing order: `position` is the next position to look
at. One look settles the word under the cursor; if no member is left there, the cursor skips to the
next word that is not zero. `next?` looks until a member is found or the words are used up.
-/

namespace PackedSet

structure Cursor where
  set : BitSet
  position : Nat
deriving DecidableEq

def BitSet.cursor (s : BitSet) : Cursor := ⟨s, 0⟩

inductive Sight where
  | found (n : Nat)
  | skip (position : Nat)

namespace Cursor

variable (c : Cursor)

/-- The index reached from `i` by stepping over zero words, at most `count` of them. -/
def skipZero : (count i : Nat) → Nat
  | 0, i => i
  | count + 1, i => if c.set.wordAt i = 0 then skipZero count (i + 1) else i

def index : Nat := wordIndex c.position

def look : Sight :=
  match Word.nextSet? (c.set.wordAt c.index) (bitOffset c.position) with
  | some offset => .found (Word.width * c.index + offset)
  | none => .skip (Word.width * c.skipZero (c.set.wordCount - (c.index + 1)) (c.index + 1))

/-- What at most `looks` looks settle: the next member, or that there is none. -/
def settle (c : Cursor) : (looks : Nat) → Option (Option Nat × Cursor)
  | 0 => if c.position < c.set.capacity then none else some (none, c)
  | looks + 1 =>
      if c.position < c.set.capacity then
        match c.look with
        | .found n => some (some n, { c with position := n + 1 })
        | .skip position => settle { c with position } looks
      else some (none, c)

/-- The next member and the cursor after it. Each skip passes a word, so as many looks as there are
words are enough. -/
def next? : Option Nat × Cursor := (c.settle c.set.wordCount).getD (none, c)

def remaining : Nat :=
  if c.position < c.set.capacity then
    (c.set.words.toList.drop (c.index + 1)).foldl (fun total w => total + Word.ones w)
      (Word.onesFrom (c.set.wordAt c.index) (bitOffset c.position))
  else 0

def nth? (c : Cursor) : (count : Nat) → Option Nat × Cursor
  | 0 => c.next?
  | count + 1 =>
      match c.next? with
      | (some _, after) => nth? after count
      | (none, after) => (none, after)

/-- Gives at most `count` members after those already `taken`, which are in reverse. -/
def takeOnto (taken : List Nat) (c : Cursor) : (count : Nat) → List Nat × Cursor
  | 0 => (taken.reverse, c)
  | count + 1 =>
      match c.next? with
      | (some n, after) => takeOnto (n :: taken) after count
      | (none, after) => (taken.reverse, after)

def take (count : Nat) : List Nat × Cursor := takeOnto [] c count

/-- All members that are left. There are no more of them than positions. -/
def rest : List Nat × Cursor := c.take (c.set.capacity + 1)

end Cursor

end PackedSet
