import PackedSet.Liveness.Solve
import PackedSet.Text.Format

/-!
# The report of a liveness analysis

The log line of every event stands before the line of its round; at the end each block has a line
with the variables that are live into it and out of it.
-/

namespace PackedSet.Liveness

def Failure.message : Failure → String
  | noBlock index => s!"no block has the index {index}"
  | tooSmall mismatch => mismatch.message
  | misuse fault => fault.message
  | unsettled => "the rounds did not settle"

def roundLines (number : Nat) (r : RoundReport) : List String :=
  r.events.map Event.line ++ [s!"round {number}: changed = {r.changed}"]

def blockLine (b : Block) (flow : Flow) : String :=
  let name := String.ofList (pad ' ' .right 5 b.name.toList)
  let into := flow.into.format .listing
  let out := flow.out.format .listing
  s!"{name}: in = {into}, out = {out}"

def Solution.lines (g : Graph) (s : Solution) : List String :=
  (s.rounds.zipIdx 1).flatMap (fun (r, number) => roundLines number r) ++
    g.zipWith blockLine s.flows

def sample : Graph :=
  [⟨"entry", [1], [], [0, 1]⟩, ⟨"loop", [1, 2], [0, 1], [2, 0]⟩, ⟨"exit", [], [2], []⟩]

end PackedSet.Liveness
