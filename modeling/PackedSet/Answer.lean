import PackedSet.BitSet.Digest
import PackedSet.BitSet.Summary
import PackedSet.Cursor.Walk
import PackedSet.Text.Format

/-!
# Answers

What a command on sets gives back, whether it reads a set or changes it.
-/

namespace PackedSet

inductive Answer where
  | done
  | flag (b : Bool)
  | number (n : Nat)
  | position (n : Option Nat)
  | positions (ns : List (Option Nat))
  | members (ns : List Nat)
  | text (s : String)
  | summary (s : BitSet.Summary)
  | runs (rs : List (Nat × Word))
  | readings (rs : List Cursor.Reading)
  | misuse (fault : Fault)
  | tooSmall (mismatch : SizeMismatch)
  | unreadable (error : Numeral.ReadError)
deriving DecidableEq

namespace Answer

def ofFault : Except Fault Unit → Answer
  | .ok () => .done
  | .error fault => .misuse fault

def ofMismatch : Except SizeMismatch Unit → Answer
  | .ok () => .done
  | .error mismatch => .tooSmall mismatch

def ofMerge : Except SizeMismatch Bool → Answer
  | .ok changed => .flag changed
  | .error mismatch => .tooSmall mismatch

def ofTest : Except Fault Bool → Answer
  | .ok b => .flag b
  | .error fault => .misuse fault

end Answer

end PackedSet
