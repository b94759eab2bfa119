import PackedSet.Text.FormatSpec

/-!
# Lists of members

The members of a set in braces, in increasing order. Every entry is written as a number with the
flags of the specification: with the zero flag it is filled with zeros behind its sign and mark,
otherwise it is padded with the fill character, on the left unless an alignment says so. The
alternate form has an entry on each line, indented by four blanks, with a comma after it.
-/

namespace PackedSet

namespace Base

def radix : Base → Nat
  | decimal => 10
  | lowerHex => 16
  | upperHex => 16

def mark : Base → List Char
  | decimal => []
  | lowerHex => ['0', 'x']
  | upperHex => ['0', 'x']

def digits (b : Base) (n : Nat) : List Char :=
  match b with
  | upperHex => (Nat.toDigits 16 n).map Char.toUpper
  | _ => Nat.toDigits b.radix n

end Base

namespace Members

def front (spec : FormatSpec) (base : Base) : List Char :=
  (if spec.plus then ['+'] else []) ++ (if spec.alternate then base.mark else [])

def entry (spec : FormatSpec) (base : Base) (n : Nat) : List Char :=
  if spec.zeroPad then
    front spec base ++ pad '0' .right (spec.width - (front spec base).length) (base.digits n)
  else pad spec.fill (spec.alignment.getD .right) spec.width (front spec base ++ base.digits n)

def openBrace : Char := '\x7b'

def closeBrace : Char := '\x7d'

def line (entry : List Char) : List Char := [' ', ' ', ' ', ' '] ++ entry ++ [',', '\n']

/-- What stands between the braces. -/
def inner (alternate : Bool) (entries : List (List Char)) : List Char :=
  if alternate then
    if entries.isEmpty then [] else '\n' :: entries.flatMap line
  else [',', ' '].intercalate entries

def write (spec : FormatSpec) (base : Base) (members : List Nat) : List Char :=
  openBrace :: inner spec.alternate (members.map (entry spec base)) ++ [closeBrace]

end Members

end PackedSet
