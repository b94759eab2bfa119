import PackedSet.Demo

/-!
# Command line

Prints the demonstration that the argument names.
-/

open PackedSet

def main (args : List String) : IO UInt32 := do
  match args with
  | [name] =>
      match demo? name with
      | some transcript =>
          for line in transcript.lines do IO.println line
          return UInt32.ofNat transcript.status
      | none =>
          IO.eprintln s!"there is no demonstration with the name {name}"
          return 2
  | _ =>
      IO.eprintln "the argument is the name of a demonstration: basic or liveness"
      return 2
