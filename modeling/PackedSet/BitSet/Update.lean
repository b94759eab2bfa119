import PackedSet.BitSet.Growth

/-!
# Single positions

Putting in, taking out and looking up one position, and runs of them. A position outside the set
is a fault, except that a growable set grows to take it in; a fault leaves the set as it was.
-/

namespace PackedSet.BitSet

variable (s : BitSet)

def modifyWord (i : Nat) (f : Word → Word) : BitSet := { s with words := s.words.modify i f }

/-- Puts in a position under the capacity. -/
def mark (n : Nat) : BitSet := s.modifyWord (wordIndex n) (Word.insert · (bitOffset n))

def unmark (n : Nat) : BitSet := s.modifyWord (wordIndex n) (Word.erase · (bitOffset n))

def misuse (fault : Fault) : Outcome (Except Fault Unit) := ⟨.error fault, s, [.misused fault]⟩

def insert (n : Nat) : Outcome (Except Fault Unit) :=
  if n < s.capacity then .done (s.mark n)
  else if s.growable then
    let grown := s.grow (wordIndex n + 1)
    ⟨.ok (), grown.set.mark n, grown.events⟩
  else s.misuse (.outOfRange .insert n s.capacity)

def erase (n : Nat) : Outcome (Except Fault Unit) :=
  if n < s.capacity then .done (s.unmark n)
  else s.misuse (.outOfRange .erase n s.capacity)

def clear : BitSet := { s with words := s.words.map fun _ => 0 }

def filledWord (n i : Nat) (w : Word) : Word :=
  if i < wordIndex n then Word.full
  else if i = wordIndex n then w ||| Word.below (bitOffset n)
  else w

/-- Puts in all positions under `n`. The set never grows for it. -/
def fill (n : Nat) : Outcome (Except Fault Unit) :=
  if s.capacity < n then s.misuse (.outOfRange .fill n s.capacity)
  else .done { s with words := s.words.mapIdx (filledWord n) }

def test (n : Nat) : Logged (Except Fault Bool) :=
  if n < s.capacity then ⟨.ok (s.contains n), []⟩
  else
    let fault : Fault := .outOfRange .test n s.capacity
    ⟨.error fault, [.misused fault]⟩

/-- Puts in the positions of a list in order, up to the first that is refused. -/
def extend (positions : List Nat) : Outcome (Except Fault Unit) :=
  Outcome.forEach insert s positions

def collect (positions : List Nat) : Logged BitSet :=
  let grown := (expandable 0).extend positions
  ⟨grown.set, grown.events⟩

end PackedSet.BitSet
