import PackedSet.BitSet.Algebra
import PackedSet.Liveness.Graph

/-!
# Live variables

A variable is live where its value may still be used. `round` visits the blocks from the last to
the first: what is live into a successor is live out of the block, and what is live out and not
defined, or used, is live into it. `solve` repeats rounds until one changes nothing. Every round
but the last puts a used variable into some block, so there are at most `roundLimit` of them.
-/

namespace PackedSet.Liveness

inductive Failure where
  | noBlock (index : Nat)
  | tooSmall (mismatch : SizeMismatch)
  | misuse (fault : Fault)
  | unsettled

structure Flow where
  into : BitSet
  out : BitSet

structure State where
  flows : List Flow
  changed : Bool
  events : List Event

def flowAt (flows : List Flow) (i : Nat) : Except Failure Flow :=
  match flows[i]? with
  | some flow => .ok flow
  | none => .error (.noBlock i)

def mergeAll : BitSet → List BitSet → Outcome (Except SizeMismatch Unit) :=
  Outcome.forEach fun s src => (s.merge src).map fun r => r.map fun _ => ()

/-- Takes out the variables in the list. A variable outside the set is not in it. -/
def kill : BitSet → List Nat → Outcome (Except Fault Unit) :=
  Outcome.forEach fun s d => if d < s.capacity then s.erase d else .done s

def transfer (b : Block) (out : BitSet) : Outcome (Except Fault Unit) :=
  (kill out b.defs).andThen fun s => s.extend b.uses

def visit (g : Graph) (st : State) (i : Nat) : Except Failure State :=
  match g[i]? with
  | none => .error (.noBlock i)
  | some b => do
      let flow ← flowAt st.flows i
      let sources ← b.successors.mapM fun j => (flowAt st.flows j).map Flow.into
      let joined := mergeAll flow.out sources
      joined.result.mapError .tooSmall
      let moved := transfer b joined.set
      moved.result.mapError .misuse
      let merged := flow.into.merge moved.set
      let changed ← merged.result.mapError .tooSmall
      return {
        flows := st.flows.set i ⟨merged.set, joined.set⟩
        changed := st.changed || changed
        events := st.events ++ joined.events ++ moved.events ++ merged.events }

def round (g : Graph) (flows : List Flow) : Except Failure State :=
  (List.range g.length).reverse.foldlM (visit g) ⟨flows, false, []⟩

structure RoundReport where
  changed : Bool
  events : List Event

structure Solution where
  rounds : List RoundReport
  flows : List Flow

def iterate (g : Graph) (flows : List Flow) : (limit : Nat) → Except Failure Solution
  | 0 => .error .unsettled
  | limit + 1 => do
      let st ← round g flows
      let report : RoundReport := ⟨st.changed, st.events⟩
      if st.changed then
        let later ← iterate g st.flows limit
        return { later with rounds := report :: later.rounds }
      else return ⟨[report], st.flows⟩

def roundLimit (g : Graph) : Nat := 1 + g.length * g.usedVariables.length

def start (g : Graph) : List Flow := g.map fun _ => ⟨.expandable 0, .expandable 0⟩

def solve (g : Graph) : Except Failure Solution := iterate g (start g) (roundLimit g)

end PackedSet.Liveness
