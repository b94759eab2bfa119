/-!
# Misuse and lack of room

A `Fault` is a broken promise of the caller: a position outside the set, or a copy between sets of
different sizes. A `SizeMismatch` is no misuse: a result did not fit into a fixed set. Each carries
the numbers that its message shows.
-/

namespace PackedSet

/-- The operations that refuse a position outside the set. -/
inductive Access where
  | insert
  | erase
  | fill
  | test
deriving DecidableEq

namespace Access

def label : Access → String
  | insert => "set_bit"
  | erase => "clear_bit"
  | fill => "set_initial_bits"
  | test => "is_bit_set"

end Access

inductive Fault where
  /-- The position `index`, or for `fill` the bound `index`, lies outside `capacity` positions. -/
  | outOfRange (access : Access) (index capacity : Nat)
  /-- A copy needs as many words in the source as in the destination. -/
  | sizesDiffer (dest src : Nat)
deriving DecidableEq

namespace Fault

def message : Fault → String
  | outOfRange access index capacity =>
      s!"{access.label}: bit {index} out of range for bit vector of {capacity} bits"
  | sizesDiffer dest src =>
      s!"copy_from: mismatched bit vector sizes ({dest} words, {src} words)"

end Fault

/-- A result of `required` words was refused by a fixed set of `available` words. -/
structure SizeMismatch where
  required : Nat
  available : Nat
deriving DecidableEq

namespace SizeMismatch

def message (m : SizeMismatch) : String :=
  s!"result needs {m.required} words but the fixed destination has {m.available}"

end SizeMismatch

end PackedSet
