import PackedSet.BitSet.Basic

/-!
# Digests

The bytes that stand for a set in a hash: the number of its significant words in eight bytes, then
each of those words in four, lowest byte first. Sets with the same members have the same digest.
-/

namespace PackedSet

def littleEndian (count n : Nat) : List UInt8 :=
  (List.range count).map fun i => UInt8.ofNat (n >>> (8 * i))

def BitSet.digest (s : BitSet) : List UInt8 :=
  littleEndian 8 s.significant.length ++ s.significant.flatMap fun w => littleEndian 4 w.toNat

def hexDigits (b : UInt8) : List Char :=
  [Nat.digitChar (b.toNat / 16), Nat.digitChar (b.toNat % 16)]

def hexText (bytes : List UInt8) : String := String.ofList (bytes.flatMap hexDigits)

end PackedSet
