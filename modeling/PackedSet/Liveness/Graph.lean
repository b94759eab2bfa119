/-!
# Flow graphs

A flow graph is a list of blocks, named by their index. A block uses variables, defines variables,
and is followed by its successors. What it uses is read before anything is defined in it.
-/

namespace PackedSet.Liveness

structure Block where
  name : String
  successors : List Nat
  uses : List Nat
  defs : List Nat

abbrev Graph := List Block

namespace Graph

variable (g : Graph)

def usedVariables : List Nat := (g.flatMap Block.uses).eraseDups

def Closed : Prop := ∀ b ∈ g, ∀ j ∈ b.successors, j < g.length

end Graph

end PackedSet.Liveness
