import PackedSet.Fault

/-!
# Events

What a set reports while it works: every growth, every refusal for lack of room, and every misuse.
An event has a level, a message and named fields, and one line of log text.
-/

namespace PackedSet

inductive Event where
  /-- The word count went from `old` to `new`. -/
  | grew (old new : Nat)
  | refused (mismatch : SizeMismatch)
  | misused (fault : Fault)
deriving DecidableEq

namespace Event

inductive Field where
  | number (n : Nat)
  | text (s : String)
deriving DecidableEq

def Field.shown : Field → String
  | number n => toString n
  | text s => s!"\"{s}\""

def level : Event → String
  | grew .. => "DEBUG"
  | refused _ => "DEBUG"
  | misused _ => "ERROR"

def message : Event → String
  | grew .. => "growing bit vector"
  | refused _ => "fixed bit vector too small for result"
  | misused (.outOfRange ..) => "bit index out of range"
  | misused (.sizesDiffer ..) => "mismatched bit vector sizes"

def fields : Event → List (String × Field)
  | grew old new => [("old_words", .number old), ("new_words", .number new)]
  | refused m => [("required_words", .number m.required), ("available_words", .number m.available)]
  | misused (.outOfRange access index capacity) =>
      [("op", .text access.label), ("index", .number index), ("capacity", .number capacity)]
  | misused (.sizesDiffer dest src) => [("dest_words", .number dest), ("src_words", .number src)]

def line (e : Event) : String :=
  let shown := e.fields.map fun (name, value) => s!" {name}={value.shown}"
  s!"{e.level} {e.message}" ++ String.join shown

end Event

end PackedSet
