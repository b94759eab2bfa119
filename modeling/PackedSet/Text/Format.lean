import PackedSet.Text.Numeral
import PackedSet.Text.Members

/-!
# Written sets

`format` writes a set as its specification asks. A numeral heeds no flag but the alternate form,
which puts a mark in front.
-/

namespace PackedSet.BitSet

def format (spec : FormatSpec) (s : BitSet) : String :=
  String.ofList <| match spec.style with
    | .numeral => Numeral.write spec.alternate s
    | .members base => Members.write spec base s.toList

end PackedSet.BitSet
