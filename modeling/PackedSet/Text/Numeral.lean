import PackedSet.BitSet.Update

/-!
# Binary numerals

A set is written as the numeral in base two whose digit at distance `n` from the right is one
exactly if `n` is a member. Reading drops one leading mark `0b`, ignores underscores, and takes the
digits from the right; of several symbols that are no digits it reports the last one.
-/

namespace PackedSet

namespace Numeral

inductive ReadError where
  | empty
  /-- The byte at `offset`, counted after the mark, is no digit; `symbol` has its value. -/
  | invalid (symbol : Char) (offset : Nat)
deriving DecidableEq

def ReadError.message : ReadError → String
  | empty => "cannot parse bit vector from empty string"
  | invalid symbol offset => s!"invalid character '{symbol}' at position {offset} in binary string"

def digit (b : Bool) : Char := if b then '1' else '0'

def wordDigits (w : Word) : List Char := Word.offsets.reverse.map fun i => digit (Word.test w i)

/-- The digits of a set, highest first and without leading zeros. -/
def digits (s : BitSet) : List Char :=
  match s.significant.reverse with
  | [] => ['0']
  | top :: lower => (wordDigits top).dropWhile (· == '0') ++ lower.flatMap wordDigits

def mark : List Char := ['0', 'b']

def write (marked : Bool) (s : BitSet) : List Char := (if marked then mark else []) ++ digits s

def dropMark : List Char → List Char
  | '0' :: 'b' :: rest => rest
  | cs => cs

def zero : UInt8 := 0x30

def one : UInt8 := 0x31

def underscore : UInt8 := 0x5F

def body (text : String) : List UInt8 := (dropMark text.toList).flatMap String.utf8EncodeChar

def isNumeralByte (b : UInt8) : Bool := b == zero || b == one || b == underscore

/-- The last byte that does not belong into a numeral, with its offset. -/
def lastFlaw? (bytes : List UInt8) : Option (UInt8 × Nat) :=
  bytes.zipIdx.reverse.find? fun (b, _) => !isNumeralByte b

def digitsFromRight (bytes : List UInt8) : List UInt8 := bytes.reverse.filter (· != underscore)

def onePlaces (bytes : List UInt8) : List Nat :=
  ((digitsFromRight bytes).zipIdx.filter fun (b, _) => b == one).map (·.2)

/-- Reads the bytes of a numeral into a growable set with one position for each byte. -/
def readBytes (bytes : List UInt8) : Logged (Except ReadError BitSet) :=
  if bytes.isEmpty then ⟨.error .empty, []⟩
  else match lastFlaw? bytes with
    | some (b, offset) => ⟨.error (.invalid (Char.ofUInt8 b) offset), []⟩
    | none =>
        let built := (BitSet.expandable bytes.length).extend (onePlaces bytes)
        ⟨.ok built.set, built.events⟩

def read (text : String) : Logged (Except ReadError BitSet) := readBytes (body text)

end Numeral

end PackedSet
