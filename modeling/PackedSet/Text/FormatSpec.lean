import PackedSet.Text.Padding

/-!
# Format specifications

How a set is to be written: as a binary numeral or as a list of its members, with the flags that
number formatting knows. A specification is written in braces as
`{:[[fill]align][sign]['#']['0'][width]['.' precision][kind]}`, or `{}` for a plain numeral.
-/

namespace PackedSet

inductive Base where
  | decimal
  | lowerHex
  | upperHex
deriving DecidableEq

inductive Style where
  | numeral
  | members (base : Base)
deriving DecidableEq

structure FormatSpec where
  fill : Char
  alignment : Option Alignment
  plus : Bool
  alternate : Bool
  zeroPad : Bool
  width : Nat
  precision : Option Nat
  style : Style
deriving DecidableEq

namespace FormatSpec

def plain : FormatSpec := ⟨' ', none, false, false, false, 0, none, .numeral⟩

def listing : FormatSpec := { plain with style := .members .decimal }

def alignmentOf? : Char → Option Alignment
  | '<' => some .left
  | '^' => some .center
  | '>' => some .right
  | _ => none

def styleOf? : List Char → Option Style
  | [] => some .numeral
  | ['b'] => some .numeral
  | ['?'] => some (.members .decimal)
  | ['x', '?'] => some (.members .lowerHex)
  | ['X', '?'] => some (.members .upperHex)
  | _ => none

/-- The fill and the alignment at the front of `cs`, and what follows them. -/
def takeAlignment : List Char → Char × Option Alignment × List Char
  | [] => (' ', none, [])
  | [c] => match alignmentOf? c with
      | some a => (' ', some a, [])
      | none => (' ', none, [c])
  | c :: d :: rest => match alignmentOf? d with
      | some a => (c, some a, rest)
      | none => match alignmentOf? c with
          | some a => (' ', some a, d :: rest)
          | none => (' ', none, c :: d :: rest)

def takeFlag (flag : Char) : List Char → Bool × List Char
  | [] => (false, [])
  | c :: rest => if c = flag then (true, rest) else (false, c :: rest)

def takeNumber (cs : List Char) : Option Nat × List Char :=
  let digits := cs.takeWhile Char.isDigit
  let value := digits.foldl (fun n d => 10 * n + (d.toNat - '0'.toNat)) 0
  (if digits.isEmpty then none else some value, cs.dropWhile Char.isDigit)

def takePrecision : List Char → Option Nat × List Char
  | '.' :: rest => takeNumber rest
  | cs => (none, cs)

def ofFlags? (cs : List Char) : Option FormatSpec :=
  let (fill, alignment, cs) := takeAlignment cs
  let (plus, cs) := takeFlag '+' cs
  let (_, cs) := if plus then (true, cs) else takeFlag '-' cs
  let (alternate, cs) := takeFlag '#' cs
  let (zeroPad, cs) := takeFlag '0' cs
  let (width, cs) := takeNumber cs
  let (precision, cs) := takePrecision cs
  (styleOf? cs).map fun style =>
    ⟨fill, alignment, plus, alternate, zeroPad, width.getD 0, precision, style⟩

def ofText? (text : String) : Option FormatSpec :=
  match text.toList with
  | ['\x7b', '\x7d'] => some plain
  | '\x7b' :: ':' :: rest =>
      if rest.getLast? = some '\x7d' then ofFlags? rest.dropLast else none
  | _ => none

end FormatSpec

end PackedSet
