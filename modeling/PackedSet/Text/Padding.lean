/-!
# Padding

Text shorter than a width is filled up to it, on the side that its alignment leaves free. Text that
is long enough stays as it is.
-/

namespace PackedSet

inductive Alignment where
  | left
  | center
  | right
deriving DecidableEq

def pad (fill : Char) (alignment : Alignment) (width : Nat) (text : List Char) : List Char :=
  let missing := width - text.length
  match alignment with
  | .left => text ++ List.replicate missing fill
  | .right => List.replicate missing fill ++ text
  | .center =>
      List.replicate (missing / 2) fill ++ text ++ List.replicate (missing - missing / 2) fill

theorem pad_of_width_le (fill : Char) (alignment : Alignment) {width : Nat} {text : List Char}
    (h : width ≤ text.length) : pad fill alignment width text = text := by
  cases alignment <;> simp [pad, Nat.sub_eq_zero_of_le h]

theorem length_pad (fill : Char) (alignment : Alignment) (width : Nat) (text : List Char) :
    (pad fill alignment width text).length = max width text.length := by
  cases alignment <;> simp [pad] <;> omega

end PackedSet
