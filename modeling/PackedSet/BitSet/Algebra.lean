import PackedSet.BitSet.Update

/-!
# Operations on whole sets

Operands may have different capacities, and only the words of a result up to its last non-zero one
have to fit. `inter` and `union` store their result over the former content; `merge` and `meet`
work in place and say whether any member was put in or taken out.
-/

namespace PackedSet.BitSet

variable (s : BitSet)

def overwrite (f : Nat → Word) : BitSet := { s with words := s.words.mapIdx fun i _ => f i }

def copyFrom (src : BitSet) : Outcome (Except Fault Unit) :=
  if s.wordCount = src.wordCount then .done { s with words := src.words }
  else s.misuse (.sizesDiffer s.wordCount src.wordCount)

/-- The number of words that the common members of two sets reach. -/
def commonExtent (a b : BitSet) : Nat :=
  reach (fun i => a.wordAt i &&& b.wordAt i) (min a.wordCount b.wordCount)

def inter (a b : BitSet) : Outcome (Except SizeMismatch Unit) :=
  (s.ensure (commonExtent a b)).andThen fun s =>
    .done (s.overwrite fun i => a.wordAt i &&& b.wordAt i)

def union (a b : BitSet) : Outcome (Except SizeMismatch Unit) :=
  (s.ensure (max a.extent b.extent)).andThen fun s =>
    .done (s.overwrite fun i => a.wordAt i ||| b.wordAt i)

/-- Puts in the members of `src`. The result tells whether one of them is new; to grow alone is no
change. -/
def merge (src : BitSet) : Outcome (Except SizeMismatch Bool) :=
  (s.ensure src.extent).andThen fun s =>
    let merged := s.overwrite fun i => s.wordAt i ||| src.wordAt i
    ⟨.ok (merged.words != s.words), merged, []⟩

def meet (src : BitSet) : Outcome Bool :=
  let met := s.overwrite fun i => s.wordAt i &&& src.wordAt i
  ⟨met.words != s.words, met, []⟩

end PackedSet.BitSet
