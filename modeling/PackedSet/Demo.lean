import PackedSet.Liveness.Report
import PackedSet.Tour

/-!
# Demonstrations

The named demonstrations, each with the lines it prints and its exit status.
-/

namespace PackedSet

structure Transcript where
  lines : List String
  status : Nat

def livenessDemo : Transcript :=
  match Liveness.solve Liveness.sample with
  | .ok solution => ⟨solution.lines Liveness.sample, 0⟩
  | .error failure => ⟨[failure.message], 1⟩

def demo? : String → Option Transcript
  | "basic" => some ⟨Tour.lines, 0⟩
  | "liveness" => some livenessDemo
  | _ => none

end PackedSet
