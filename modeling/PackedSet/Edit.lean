import PackedSet.Answer
import PackedSet.BitSet.Algebra
import PackedSet.BitSet.Allocation

/-!
# Sources, edits and queries

The three things that a command does with a set: it makes one from a source, changes one by an
edit, or asks one a query. Operands have a type of their own: names while a command is
written, and sets once the names are resolved. An operand is the set as it was before the command,
so a set may be its own operand.
-/

namespace PackedSet

inductive Source (ι : Type) where
  | blank (bits : Nat) (growable : Bool)
  | copy (src : ι)
  | collect (positions : List Nat)
  | text (numeral : String)
  | written (src : ι) (spec : FormatSpec)

inductive Edit (ι : Type) where
  | insert (n : Nat)
  | erase (n : Nat)
  | clear
  | fill (n : Nat)
  | allocate
  | allocateMany (count : Nat)
  | extend (positions : List Nat)
  | copyFrom (src : ι)
  | inter (a b : ι)
  | union (a b : ι)
  | merge (src : ι)
  | meet (src : ι)

inductive Query (ι : Type) where
  | summary
  | runs
  | test (n : Nat)
  | contains (n : Nat)
  | size
  | isEmpty
  | differs (other : ι)
  | equal (other : ι)
  | unequal (other : ι)
  | members
  | digest
  | format (spec : FormatSpec)
  | walk (actions : List Cursor.Action)

variable {ι κ : Type}

namespace Source

def resolve (lookup : ι → Option κ) : Source ι → Option (Source κ)
  | blank bits growable => some (blank bits growable)
  | copy src => return copy (← lookup src)
  | collect positions => some (collect positions)
  | text numeral => some (text numeral)
  | written src spec => return written (← lookup src) spec

def build : Source BitSet → Logged (Except Numeral.ReadError BitSet)
  | blank bits growable => ⟨.ok (BitSet.blank bits growable), []⟩
  | copy src => ⟨.ok src, []⟩
  | collect positions =>
      let collected := BitSet.collect positions
      ⟨.ok collected.result, collected.events⟩
  | text numeral => Numeral.read numeral
  | written src spec => Numeral.read (src.format spec)

end Source

namespace Edit

def resolve (lookup : ι → Option κ) : Edit ι → Option (Edit κ)
  | insert n => some (insert n)
  | erase n => some (erase n)
  | clear => some clear
  | fill n => some (fill n)
  | allocate => some allocate
  | allocateMany count => some (allocateMany count)
  | extend positions => some (extend positions)
  | copyFrom src => return copyFrom (← lookup src)
  | inter a b => return inter (← lookup a) (← lookup b)
  | union a b => return union (← lookup a) (← lookup b)
  | merge src => return merge (← lookup src)
  | meet src => return meet (← lookup src)

def apply (s : BitSet) : Edit BitSet → Outcome Answer
  | insert n => (s.insert n).map .ofFault
  | erase n => (s.erase n).map .ofFault
  | clear => ⟨.done, s.clear, []⟩
  | fill n => (s.fill n).map .ofFault
  | allocate => s.allocate.map .position
  | allocateMany count => (s.allocateMany count).map .positions
  | extend positions => (s.extend positions).map .ofFault
  | copyFrom src => (s.copyFrom src).map .ofFault
  | inter a b => (s.inter a b).map .ofMismatch
  | union a b => (s.union a b).map .ofMismatch
  | merge src => (s.merge src).map .ofMerge
  | meet src => (s.meet src).map .flag

def applyAll (s : BitSet) : List (Edit BitSet) → Outcome (List Answer)
  | [] => ⟨[], s, []⟩
  | e :: rest =>
      let first := e.apply s
      let later := applyAll first.set rest
      ⟨first.result :: later.result, later.set, first.events ++ later.events⟩

end Edit

namespace Query

def resolve (lookup : ι → Option κ) : Query ι → Option (Query κ)
  | summary => some summary
  | runs => some runs
  | test n => some (test n)
  | contains n => some (contains n)
  | size => some size
  | isEmpty => some isEmpty
  | differs other => return differs (← lookup other)
  | equal other => return equal (← lookup other)
  | unequal other => return unequal (← lookup other)
  | members => some members
  | digest => some digest
  | format spec => some (format spec)
  | walk actions => some (walk actions)

/-- The answer of a set. There is none to a walk that names a cursor it does not have. -/
def ask (s : BitSet) : Query BitSet → Option (Logged Answer)
  | summary => some ⟨.summary s.summary, []⟩
  | runs => some ⟨.runs s.wordRuns, []⟩
  | test n => some ⟨.ofTest (s.test n).result, (s.test n).events⟩
  | contains n => some ⟨.flag (s.contains n), []⟩
  | size => some ⟨.number s.size, []⟩
  | isEmpty => some ⟨.flag s.isEmpty, []⟩
  | differs other => some ⟨.flag (s.differs other), []⟩
  | equal other => some ⟨.flag (s.sameMembers other), []⟩
  | unequal other => some ⟨.flag (!s.sameMembers other), []⟩
  | members => some ⟨.members s.cursor.rest.1, []⟩
  | digest => some ⟨.text (hexText s.digest), []⟩
  | format spec => some ⟨.text (s.format spec), []⟩
  | walk actions => (Cursor.walk [s.cursor] actions).map fun readings => ⟨.readings readings, []⟩

end Query

end PackedSet
