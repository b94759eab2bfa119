import PackedSet.Proofs.Refinement
import PackedSet.Proofs.Cursor.Lists

/-!
# Sets alike up to room

Two sets are alike if they have the same members and are both growable, or both fixed with the same
capacity. Alike fixed sets are equal, and a growable set takes every edit of its members, so
edits on alike sets give the same results and leave alike sets. Whatever reads no more than the
members reads the same on both.
-/

namespace PackedSet

structure PlainSet.Alike (p q : PlainSet) : Prop where
  members : p.members = q.members
  growable : p.growable = q.growable
  wordCount : p.growable = false → p.wordCount = q.wordCount

structure Agree {α : Type} (x y : α × PlainSet) : Prop where
  result : x.1 = y.1
  alike : x.2.Alike y.2

theorem Agree.map {α β : Type} {x y : α × PlainSet} (h : Agree x y) (f : α → β) :
    Agree (x.map f id) (y.map f id) := ⟨congrArg f h.result, h.alike⟩

namespace PlainSet

theorem Alike.refl (p : PlainSet) : p.Alike p := ⟨rfl, rfl, fun _ => rfl⟩

namespace Alike

variable {p q : PlainSet} (h : p.Alike q)
include h

theorem eq_of_fixed (hg : p.growable = false) : p = q :=
  PlainSet.ext h.members (h.wordCount hg) h.growable

/-- Only growable sets have to be looked at: alike fixed sets are equal. -/
theorem agree_of_growable {α : Type} (f : PlainSet → α × PlainSet)
    (hf : p.growable = true → q.growable = true → Agree (f p) (f q)) : Agree (f p) (f q) := by
  by_cases hg : p.growable = true
  · exact hf hg (h.growable ▸ hg)
  · obtain rfl := h.eq_of_fixed (Bool.eq_false_iff.2 hg)
    exact ⟨rfl, refl _⟩

theorem leastAbsent : p.leastAbsent = q.leastAbsent := by
  simp only [PlainSet.leastAbsent, h.members]

theorem keep {members : Finset Nat} (hp : ∀ n ∈ members, n < p.capacity)
    (hq : ∀ n ∈ members, n < q.capacity) : (p.keep members hp).Alike (q.keep members hq) :=
  ⟨rfl, h.growable, h.wordCount⟩

theorem hold (members : Finset Nat) : (p.hold members).Alike (q.hold members) := by
  refine ⟨rfl, h.growable, fun hg => ?_⟩
  rw [wordCount_hold, wordCount_hold, h.wordCount hg]

theorem insert (n : Nat) : Agree (p.insert n) (q.insert n) := by
  refine h.agree_of_growable (PlainSet.insert · n) fun hp hq => ?_
  rw [PlainSet.insert, if_neg (by simp [hp]), PlainSet.insert, if_neg (by simp [hq]), h.members]
  exact ⟨rfl, h.hold _⟩

theorem clear : p.clear.Alike q.clear := h.keep _ _

theorem allocate : Agree p.allocate q.allocate := by
  refine h.agree_of_growable PlainSet.allocate fun hp hq => ?_
  rw [PlainSet.allocate, if_neg (by simp [hp]), PlainSet.allocate, if_neg (by simp [hq]),
    h.leastAbsent, h.members]
  exact ⟨rfl, h.hold _⟩

theorem allocateMany (count : Nat) : Agree (p.allocateMany count) (q.allocateMany count) := by
  induction count generalizing p q with
  | zero => exact ⟨rfl, h⟩
  | succ count ih =>
      have hfirst := h.allocate
      have hlater := ih hfirst.alike
      exact ⟨congrArg₂ List.cons hfirst.result hlater.result, hlater.alike⟩

theorem extend (positions : List Nat) : Agree (p.extend positions) (q.extend positions) := by
  induction positions generalizing p q with
  | nil => exact ⟨rfl, h⟩
  | cons n rest ih =>
      obtain ⟨hresult, hset⟩ := h.insert n
      rw [PlainSet.extend, PlainSet.extend]
      rcases hp : p.insert n with ⟨result, p'⟩
      rcases hq : q.insert n with ⟨result', q'⟩
      rw [hp, hq] at hresult hset
      obtain rfl : result = result' := hresult
      cases result with
      | error fault => exact ⟨rfl, hset⟩
      | ok u => exact ih hset

theorem store (members : Finset Nat) : Agree (p.store members) (q.store members) := by
  refine h.agree_of_growable (PlainSet.store · members) fun hp hq => ?_
  rw [PlainSet.store, if_neg (by simp [hp]), PlainSet.store, if_neg (by simp [hq])]
  exact ⟨rfl, h.hold _⟩

variable {a b a' b' : PlainSet} (ha : a.Alike a')
include ha

theorem inter (hb : b.Alike b') : Agree (p.inter a b) (q.inter a' b') := by
  rw [PlainSet.inter, PlainSet.inter, ha.members, hb.members]
  exact h.store _

theorem union (hb : b.Alike b') : Agree (p.union a b) (q.union a' b') := by
  rw [PlainSet.union, PlainSet.union, ha.members, hb.members]
  exact h.store _

theorem merge : Agree (p.merge a) (q.merge a') := by
  rw [PlainSet.merge, PlainSet.merge, ← ha.members, ← h.members]
  exact (h.store _).map _

theorem meet : Agree (p.meet a) (q.meet a') := by
  constructor
  · simp only [PlainSet.meet, h.members, ha.members]
  · refine ⟨?_, h.growable, h.wordCount⟩
    simp only [PlainSet.meet, PlainSet.keep, h.members, ha.members]

end Alike

end PlainSet

namespace BitSet

/-- The same members, whatever the word counts; fixed sets have the same capacity as well. -/
structure Alike (s t : BitSet) : Prop where
  sameMembers : s.sameMembers t = true
  growable : s.growable = t.growable
  capacity : s.growable = false → s.capacity = t.capacity

theorem alike_iff_plain {s t : BitSet} : s.Alike t ↔ s.plain.Alike t.plain := by
  have hcapacity : s.capacity = t.capacity ↔ s.wordCount = t.wordCount :=
    Nat.mul_right_inj (by decide)
  constructor
  · intro h
    refine ⟨Finset.ext fun n => ?_, h.growable, fun hg => hcapacity.1 (h.capacity hg)⟩
    rw [mem_plain, mem_plain, sameMembers_iff.1 h.sameMembers]
  · intro h
    refine ⟨sameMembers_iff.2 fun n => ?_, h.growable, fun hg => hcapacity.2 (h.wordCount hg)⟩
    rw [Bool.eq_iff_iff, ← mem_plain, ← mem_plain, h.members]

theorem Alike.refl (s : BitSet) : s.Alike s := alike_iff_plain.2 (PlainSet.Alike.refl _)

namespace Alike

variable {s t : BitSet} (h : s.Alike t)
include h

theorem contains (n : Nat) : s.contains n = t.contains n := sameMembers_iff.1 h.sameMembers n

theorem toList : s.toList = t.toList := toList_congr h.contains

theorem significant : s.significant = t.significant := significant_eq_iff.2 h.contains

theorem size : s.size = t.size := by
  rw [size_eq_length_toList, size_eq_length_toList, h.toList]

theorem isEmpty : s.isEmpty = t.isEmpty := by
  rw [Bool.eq_iff_iff, isEmpty_iff, isEmpty_iff]
  exact forall_congr' fun n => by rw [h.contains]

theorem digest : s.digest = t.digest := by
  rw [BitSet.digest, BitSet.digest, h.significant]

theorem format (spec : FormatSpec) : s.format spec = t.format spec := by
  have hdigits : Numeral.digits s = Numeral.digits t := by
    rw [Numeral.digits, Numeral.digits, h.significant]
  rw [BitSet.format, BitSet.format, Numeral.write, Numeral.write, hdigits, h.toList]

theorem walk (actions : List Cursor.Action) :
    Cursor.walk [s.cursor] actions = Cursor.walk [t.cursor] actions := by
  rw [Cursor.walk_cursor, Cursor.walk_cursor, h.toList]

theorem members : s.cursor.rest.1 = t.cursor.rest.1 := by
  rw [Cursor.rest_cursor, Cursor.rest_cursor, h.toList]

theorem differs {a b : BitSet} (hab : a.Alike b) : s.differs a = t.differs b := by
  rw [BitSet.differs, BitSet.differs, h.significant, hab.significant]

end Alike

end BitSet

end PackedSet
