import PackedSet.BitSet.Algebra
import PackedSet.BitSet.Allocation
import PackedSet.Cursor.Basic
import PackedSet.Text.Format

/-!
# A tour of the operations

The lines of a demonstration: registers are handed out from a fixed set, a growable set takes in
visited nodes, and whole sets are combined.
-/

namespace PackedSet.Tour

def shownPosition : Option Nat → String
  | some n => s!"Some({n})"
  | none => "None"

def shownChange : Except SizeMismatch Bool → String
  | .ok changed => toString changed
  | .error mismatch => mismatch.message

def listed (s : BitSet) : String := s.format .listing

def registerLines : List String :=
  let regs := BitSet.fixed 40
  let handed := regs.allocateMany 3
  let names := " ".intercalate (handed.result.map shownPosition)
  let released := (handed.set.erase 1).set
  let again := released.allocate
  let next := shownPosition again.result
  let filled := (again.set.fill again.set.capacity).set
  let refused := shownPosition filled.allocate.result
  ["Created fixed vector",
    s!"Capacity: {regs.capacity} bits ({regs.wordCount} words)", "",
    s!"Allocated registers: {names}",
    "Released register 1",
    s!"Next allocation: {next}", "",
    s!"Filled all {filled.size} bits",
    s!"Allocation on a full fixed vector: {refused}", ""]

def visitedNodes : BitSet := ((BitSet.expandable 16).extend [2, 5, 9]).set

def moreNodes : BitSet := (visitedNodes.insert 40).set

def otherNodes : BitSet := (BitSet.collect [5, 9, 77]).result

def growthLines : List String :=
  let first := listed visitedNodes
  let later := listed moreNodes
  [s!"Visited nodes: {first}, capacity {visitedNodes.capacity}",
    s!"After visiting 40: {later}, capacity {moreNodes.capacity}", ""]

def unionLine : String :=
  let either := (BitSet.fixed 32).union moreNodes otherNodes
  match either.result with
  | .ok () => s!"Union: " ++ listed either.set
  | .error mismatch => "Union into a 32-bit fixed vector failed: " ++ mismatch.message

def combinationLines : List String :=
  let other := listed otherNodes
  let both := listed ((BitSet.expandable 0).inter moreNodes otherNodes).set
  let merged := moreNodes.merge otherNodes
  let again := merged.set.merge otherNodes
  let firstChange := shownChange merged.result
  let secondChange := shownChange again.result
  let differs := again.set.differs otherNodes
  let members := String.join (again.set.cursor.rest.1.map fun n => s!"{n} ")
  let numeral := again.set.format { FormatSpec.plain with alternate := true }
  [s!"Intersection with {other}: {both}", unionLine,
    s!"Merged {other} into visited, changed: {firstChange}",
    s!"Merged again, changed: {secondChange}",
    s!"Visited differs from other? {differs}", "",
    s!"Set bits: {members}",
    s!"As binary: {numeral}"]

def lines : List String :=
  ["=== BitVector Basic Usage ===", ""] ++ registerLines ++ growthLines ++ combinationLines

end PackedSet.Tour
