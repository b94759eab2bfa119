import PackedSet.Edit
import PackedSet.Proofs.Room
import Mathlib.Data.Finset.Range
import Mathlib.Order.Lattice.Nat

/-!
# Plain sets

A plain set is what a packed set stands for: a finite set of numbers with room for so many words
of them, growable or not. Every edit has its plain counterpart, which says in terms of finite sets
when the edit is refused, what it answers and what it leaves. Packed words do not occur here.
-/

namespace PackedSet

def wordsOf (members : Finset Nat) : Nat := members.sup fun n => wordIndex n + 1

theorem wordsOf_le_iff {members : Finset Nat} {k : Nat} :
    wordsOf members ≤ k ↔ ∀ n ∈ members, n < Word.width * k := by
  rw [wordsOf, Finset.sup_le_iff]
  exact forall₂_congr fun n _ => Nat.succ_le_iff.trans wordIndex_lt_iff

@[simp] theorem wordsOf_singleton (n : Nat) : wordsOf {n} = wordIndex n + 1 :=
  Finset.sup_singleton

theorem wordsOf_union (a b : Finset Nat) : wordsOf (a ∪ b) = max (wordsOf a) (wordsOf b) :=
  Finset.sup_union

@[ext] structure PlainSet where
  members : Finset Nat
  wordCount : Nat
  growable : Bool
  lt_room : ∀ n ∈ members, n < Word.width * wordCount

namespace PlainSet

variable (p : PlainSet)

def capacity : Nat := Word.width * p.wordCount

theorem lt_capacity {n : Nat} (h : n ∈ p.members) : n < p.capacity := p.lt_room n h

theorem wordsOf_members_le : wordsOf p.members ≤ p.wordCount := wordsOf_le_iff.2 p.lt_room

theorem exists_absent : ∃ n, n ∉ p.members :=
  ⟨p.capacity, fun h => Nat.lt_irrefl _ (p.lt_capacity h)⟩

theorem room_wordsOf_union (new : Finset Nat) :
    room p.wordCount (wordsOf (p.members ∪ new)) = room p.wordCount (wordsOf new) := by
  rw [wordsOf_union, Nat.max_comm, room_max_of_le _ p.wordsOf_members_le]

theorem lt_wordsOf_union_iff (new : Finset Nat) :
    p.wordCount < wordsOf (p.members ∪ new) ↔ p.wordCount < wordsOf new := by
  have hle := p.wordsOf_members_le
  rw [wordsOf_union]
  omega

theorem wordsOf_union_of_lt {new : Finset Nat} (h : p.wordCount < wordsOf new) :
    wordsOf (p.members ∪ new) = wordsOf new := by
  have hle := p.wordsOf_members_le
  rw [wordsOf_union]
  omega

def leastAbsent : Nat := Nat.find p.exists_absent

def keep (members : Finset Nat) (h : ∀ n ∈ members, n < p.capacity) : PlainSet :=
  ⟨members, p.wordCount, p.growable, h⟩

/-- The given members in as much room, grown if they need more. -/
def hold (members : Finset Nat) : PlainSet :=
  ⟨members, room p.wordCount (wordsOf members), p.growable, wordsOf_le_iff.1 (le_room _ _)⟩

@[simp] theorem members_hold (members : Finset Nat) : (p.hold members).members = members := rfl

@[simp] theorem wordCount_hold (members : Finset Nat) :
    (p.hold members).wordCount = room p.wordCount (wordsOf members) := rfl

@[simp] theorem growable_hold (members : Finset Nat) :
    (p.hold members).growable = p.growable := rfl

theorem hold_members : p.hold p.members = p :=
  PlainSet.ext rfl (room_of_le p.wordsOf_members_le) rfl

theorem hold_hold {few many : Finset Nat} (h : few ⊆ many) :
    (p.hold few).hold many = p.hold many := by
  refine PlainSet.ext rfl ?_ rfl
  have hle : wordsOf few ≤ wordsOf many := Finset.sup_mono h
  rw [wordCount_hold, wordCount_hold, room_room, Nat.max_eq_right hle, wordCount_hold]

def insert (n : Nat) : Except Fault Unit × PlainSet :=
  if p.growable = false ∧ p.capacity ≤ n then (.error (.outOfRange .insert n p.capacity), p)
  else (.ok (), p.hold (p.members ∪ {n}))

def erase (n : Nat) : Except Fault Unit × PlainSet :=
  if p.capacity ≤ n then (.error (.outOfRange .erase n p.capacity), p)
  else (.ok (), p.keep (p.members \ {n}) fun _ hm => p.lt_capacity (Finset.mem_sdiff.1 hm).1)

def clear : PlainSet := p.keep ∅ fun _ hm => absurd hm (Finset.notMem_empty _)

theorem lt_capacity_of_mem_union_range {k m : Nat} (hk : ¬ p.capacity < k)
    (hm : m ∈ p.members ∪ Finset.range k) : m < p.capacity := by
  rcases Finset.mem_union.1 hm with hm | hm
  · exact p.lt_capacity hm
  · exact Nat.lt_of_lt_of_le (Finset.mem_range.1 hm) (Nat.not_lt.1 hk)

def fill (k : Nat) : Except Fault Unit × PlainSet :=
  if hk : p.capacity < k then (.error (.outOfRange .fill k p.capacity), p)
  else (.ok (), p.keep (p.members ∪ Finset.range k) fun _ => p.lt_capacity_of_mem_union_range hk)

def allocate : Option Nat × PlainSet :=
  if p.growable = false ∧ p.members = Finset.range p.capacity then (none, p)
  else (some p.leastAbsent, p.hold (p.members ∪ {p.leastAbsent}))

def allocateMany (p : PlainSet) : Nat → List (Option Nat) × PlainSet
  | 0 => ([], p)
  | count + 1 =>
      let first := p.allocate
      let later := allocateMany first.2 count
      (first.1 :: later.1, later.2)

def extend (p : PlainSet) : List Nat → Except Fault Unit × PlainSet
  | [] => (.ok (), p)
  | n :: rest =>
      match p.insert n with
      | (.ok (), q) => extend q rest
      | (.error fault, q) => (.error fault, q)

def copyFrom (src : PlainSet) : Except Fault Unit × PlainSet :=
  if h : p.wordCount = src.wordCount then
    (.ok (), p.keep src.members fun _ hn =>
      Nat.lt_of_lt_of_eq (src.lt_capacity hn) (congrArg (Word.width * ·) h.symm))
  else (.error (.sizesDiffer p.wordCount src.wordCount), p)

/-- Takes on the given members, unless the set is fixed and too small for them. -/
def store (members : Finset Nat) : Except SizeMismatch Unit × PlainSet :=
  if p.growable = false ∧ p.wordCount < wordsOf members then
    (.error ⟨wordsOf members, p.wordCount⟩, p)
  else (.ok (), p.hold members)

def inter (a b : PlainSet) : Except SizeMismatch Unit × PlainSet := p.store (a.members ∩ b.members)

def union (a b : PlainSet) : Except SizeMismatch Unit × PlainSet := p.store (a.members ∪ b.members)

def merge (src : PlainSet) : Except SizeMismatch Bool × PlainSet :=
  (p.store (p.members ∪ src.members)).map
    (fun r => r.map fun _ => decide (¬ src.members ⊆ p.members)) id

def meet (src : PlainSet) : Bool × PlainSet :=
  (decide (¬ p.members ⊆ src.members),
    p.keep (p.members ∩ src.members) fun _ hn => p.lt_capacity (Finset.mem_inter.1 hn).1)

def apply (p : PlainSet) : Edit PlainSet → Answer × PlainSet
  | .insert n => (p.insert n).map .ofFault id
  | .erase n => (p.erase n).map .ofFault id
  | .clear => (.done, p.clear)
  | .fill k => (p.fill k).map .ofFault id
  | .allocate => p.allocate.map .position id
  | .allocateMany count => (p.allocateMany count).map .positions id
  | .extend positions => (p.extend positions).map .ofFault id
  | .copyFrom src => (p.copyFrom src).map .ofFault id
  | .inter a b => (p.inter a b).map .ofMismatch id
  | .union a b => (p.union a b).map .ofMismatch id
  | .merge src => (p.merge src).map .ofMerge id
  | .meet src => (p.meet src).map .flag id

def applyAll (p : PlainSet) : List (Edit PlainSet) → List Answer × PlainSet
  | [] => ([], p)
  | e :: rest =>
      let first := p.apply e
      let later := applyAll first.2 rest
      (first.1 :: later.1, later.2)

end PlainSet

end PackedSet
