import PackedSet.Word

/-!
# Packed sets

A `BitSet` is a finite set of natural numbers packed into words, lowest positions first. Its
capacity is the number of positions its words hold; a growable set may later hold more. Words past
the end count as zero, so membership and comparison do not depend on the capacity.
-/

namespace PackedSet

structure BitSet where
  words : Array Word
  growable : Bool
deriving DecidableEq

namespace BitSet

variable (s : BitSet)

def blank (bits : Nat) (growable : Bool) : BitSet :=
  ⟨Array.replicate (wordsFor bits) 0, growable⟩

def fixed (bits : Nat) : BitSet := blank bits false

def expandable (bits : Nat) : BitSet := blank bits true

def wordCount : Nat := s.words.size

def capacity : Nat := Word.width * s.wordCount

def wordAt (i : Nat) : Word := s.words.getD i 0

def contains (n : Nat) : Bool := Word.test (s.wordAt (wordIndex n)) (bitOffset n)

instance : Membership Nat BitSet := ⟨fun s n => s.contains n = true⟩

instance (n : Nat) : Decidable (n ∈ s) := inferInstanceAs (Decidable (s.contains n = true))

def toList : List Nat := (List.range s.capacity).filter s.contains

def size : Nat := s.words.foldl (fun total w => total + Word.ones w) 0

def isEmpty : Bool := s.words.all (· == 0)

/-- One more than the last index under `n` where `f` is not zero, or `0`. -/
def reach (f : Nat → Word) : Nat → Nat
  | 0 => 0
  | n + 1 => if f n = 0 then reach f n else n + 1

/-- The number of words up to the last one that is not zero. -/
def extent : Nat := reach s.wordAt s.wordCount

def significant : List Word := s.words.toList.take s.extent

def differs (t : BitSet) : Bool := s.significant != t.significant

/-- Equality of content, whatever the capacities. -/
def sameMembers (t : BitSet) : Bool := !s.differs t

end BitSet

end PackedSet
