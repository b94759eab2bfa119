import PackedSet.BitSet.Algebra.Membership
import PackedSet.BitSet.Allocation
import Mathlib.Order.Bounds.Defs
import Mathlib.Data.Finset.Lattice.Fold

/-!
# Room after demands

A set of `count` words that may grow and is asked for `required` words has `room count required`
of them afterwards: those it has if they are enough, else the least power of two that is. Demands
combine like maxima, so a run of them depends only on the first count and on the largest demand.
The second half says which demand each operation makes of a packed set.
-/

namespace PackedSet

def room (count required : Nat) : Nat :=
  if required ≤ count then count else leastPowerOfTwo required

theorem room_of_le {count required : Nat} (h : required ≤ count) : room count required = count :=
  if_pos h

theorem room_of_lt {count required : Nat} (h : count < required) :
    room count required = leastPowerOfTwo required := if_neg (Nat.not_le.2 h)

@[simp] theorem room_zero (count : Nat) : room count 0 = count := room_of_le (Nat.zero_le count)

theorem le_room (count required : Nat) : required ≤ room count required := by
  by_cases h : required ≤ count
  · rwa [room_of_le h]
  · rw [room_of_lt (Nat.not_le.1 h)]
    exact le_leastPowerOfTwo required

theorem count_le_room (count required : Nat) : count ≤ room count required := by
  by_cases h : required ≤ count
  · rw [room_of_le h]
  · have hr := le_room count required
    omega

theorem lt_room_iff {count required : Nat} : count < room count required ↔ count < required := by
  by_cases h : required ≤ count
  · rw [room_of_le h]
    omega
  · have hr := le_room count required
    omega

/-- A later demand below the power of two that an earlier one has led to changes nothing. -/
theorem leastPowerOfTwo_max_of_le {a b : Nat} (h : b ≤ leastPowerOfTwo a) :
    leastPowerOfTwo (max a b) = leastPowerOfTwo a := by
  apply Nat.le_antisymm
  · obtain ⟨k, hk⟩ := exists_leastPowerOfTwo_eq a
    have ha := le_leastPowerOfTwo a
    rw [hk] at h ha ⊢
    exact leastPowerOfTwo_le (Nat.max_le.2 ⟨ha, h⟩)
  · exact leastPowerOfTwo_mono (Nat.le_max_left a b)

/-- Two demands in a row are one demand for the larger of them. -/
theorem room_room (count a b : Nat) : room (room count a) b = room count (max a b) := by
  by_cases ha : a ≤ count
  · rw [room_of_le ha]
    by_cases hb : b ≤ count
    · rw [room_of_le hb, room_of_le (Nat.max_le.2 ⟨ha, hb⟩)]
    · rw [Nat.max_eq_right (by omega)]
  · have hmax : count < max a b := by omega
    rw [room_of_lt (Nat.not_le.1 ha), room_of_lt hmax]
    by_cases hb : b ≤ leastPowerOfTwo a
    · rw [room_of_le hb, leastPowerOfTwo_max_of_le hb]
    · have hle := le_leastPowerOfTwo a
      rw [room_of_lt (Nat.not_le.1 hb), Nat.max_eq_right (by omega)]

theorem room_max_of_le {count b : Nat} (a : Nat) (h : b ≤ count) :
    room count (max a b) = room count a := by
  rw [Nat.max_comm, ← room_room, room_of_le h]

def largest (demands : List Nat) : Nat := demands.foldr max 0

@[simp] theorem largest_nil : largest [] = 0 := rfl

@[simp] theorem largest_cons (d : Nat) (demands : List Nat) :
    largest (d :: demands) = max d (largest demands) := rfl

@[simp] theorem largest_singleton (d : Nat) : largest [d] = d := Nat.max_zero d

theorem largest_append (front back : List Nat) :
    largest (front ++ back) = max (largest front) (largest back) := by
  induction front with
  | nil => exact (Nat.zero_max _).symm
  | cons d front ih => rw [List.cons_append, largest_cons, largest_cons, ih, Nat.max_assoc]

theorem isPowerOfTwo_leastPowerOfTwo (n : Nat) : (leastPowerOfTwo n).isPowerOfTwo := by
  obtain ⟨k, hk⟩ := exists_leastPowerOfTwo_eq n
  exact ⟨k, hk.trans (Nat.one_shiftLeft k)⟩

theorem isLeast_leastPowerOfTwo (n : Nat) :
    IsLeast {p | n ≤ p ∧ p.isPowerOfTwo} (leastPowerOfTwo n) := by
  refine ⟨⟨le_leastPowerOfTwo n, isPowerOfTwo_leastPowerOfTwo n⟩, ?_⟩
  rintro p ⟨hn, k, hk⟩
  rw [hk, ← Nat.one_shiftLeft] at hn ⊢
  exact leastPowerOfTwo_le hn

namespace BitSet

variable (s : BitSet)

/-- The set has `required` words or can grow to have them. -/
def Fits (required : Nat) : Prop := required ≤ s.wordCount ∨ s.growable = true

theorem not_fits_iff {s : BitSet} {required : Nat} :
    ¬ s.Fits required ↔ s.wordCount < required ∧ s.growable = false := by
  rw [Fits, not_or, Nat.not_le, Bool.not_eq_true]

theorem lt_capacity_iff {n : Nat} : n < s.capacity ↔ wordIndex n + 1 ≤ s.wordCount := by
  rw [capacity, ← wordIndex_lt_iff]
  exact Nat.lt_iff_add_one_le

theorem fits_wordIndex_iff {n : Nat} :
    s.Fits (wordIndex n + 1) ↔ n < s.capacity ∨ s.growable = true := by
  rw [Fits, lt_capacity_iff]

theorem wordCount_ensure {required : Nat} (h : s.Fits required) :
    (s.ensure required).set.wordCount = room s.wordCount required := by
  by_cases hr : required ≤ s.wordCount
  · rw [s.ensure_of_le hr, room_of_le hr]
    rfl
  · have hlt := Nat.not_le.1 hr
    rw [s.ensure_of_growable hlt (h.resolve_left hr), Outcome.set_map,
      s.wordCount_grow (Nat.le_of_lt hlt), room_of_lt hlt]

section andThen

variable {α : Type} {required : Nat} (next : BitSet → Outcome (Except SizeMismatch α))

theorem ensure_andThen_of_fits (h : s.Fits required) :
    (s.ensure required).andThen next =
      let t := (s.ensure required).set
      ⟨(next t).result, (next t).set, (s.ensure required).events ++ (next t).events⟩ :=
  Outcome.andThen_of_ok (s.ensure_result_eq_ok_iff.2 h) next

theorem ensure_andThen_of_not_fits (h : ¬ s.Fits required) :
    (s.ensure required).andThen next =
      ⟨.error ⟨required, s.wordCount⟩, s, [.refused ⟨required, s.wordCount⟩]⟩ := by
  obtain ⟨hlt, hg⟩ := not_fits_iff.1 h
  rw [s.ensure_of_fixed hlt hg, Outcome.andThen_error]

end andThen

theorem result_insert {n : Nat} (h : s.Fits (wordIndex n + 1)) :
    (s.insert n).result = .ok () := by
  by_cases hn : n < s.capacity
  · rw [s.insert_of_lt hn]
    rfl
  · rw [s.insert_of_growable (Nat.not_lt.1 hn) ((s.fits_wordIndex_iff.1 h).resolve_left hn)]

theorem insert_of_not_fits {n : Nat} (h : ¬ s.Fits (wordIndex n + 1)) :
    s.insert n = s.misuse (.outOfRange .insert n s.capacity) := by
  rw [fits_wordIndex_iff, not_or, Nat.not_lt, Bool.not_eq_true] at h
  exact s.insert_of_fixed h.1 h.2

theorem wordCount_insert {n : Nat} (h : s.Fits (wordIndex n + 1)) :
    (s.insert n).set.wordCount = room s.wordCount (wordIndex n + 1) := by
  by_cases hn : n < s.capacity
  · rw [s.insert_of_lt hn, room_of_le (s.lt_capacity_iff.1 hn)]
    exact s.wordCount_mark n
  · have hlt : s.wordCount < wordIndex n + 1 := by
      rwa [lt_capacity_iff, Nat.not_le] at hn
    rw [s.insert_of_growable (Nat.not_lt.1 hn) ((s.fits_wordIndex_iff.1 h).resolve_left hn),
      room_of_lt hlt]
    exact (wordCount_mark _ n).trans (s.wordCount_grow (Nat.le_of_lt hlt))

section keeping

variable {α : Type} {required : Nat} {next : BitSet → Outcome (Except SizeMismatch α)}

theorem growable_ensure_andThen (hnext : ∀ t, (next t).set.growable = t.growable) :
    ((s.ensure required).andThen next).set.growable = s.growable := by
  by_cases h : s.Fits required
  · rw [s.ensure_andThen_of_fits next h]
    exact (hnext _).trans (s.growable_ensure required)
  · rw [s.ensure_andThen_of_not_fits next h]

theorem wordCount_ensure_andThen (hnext : ∀ t, (next t).set.wordCount = t.wordCount)
    (h : s.Fits required) :
    ((s.ensure required).andThen next).set.wordCount = room s.wordCount required := by
  rw [s.ensure_andThen_of_fits next h, ← s.wordCount_ensure h]
  exact hnext _

end keeping

@[simp] theorem growable_inter (a b : BitSet) : (s.inter a b).set.growable = s.growable :=
  s.growable_ensure_andThen fun _ => rfl

@[simp] theorem growable_union (a b : BitSet) : (s.union a b).set.growable = s.growable :=
  s.growable_ensure_andThen fun _ => rfl

@[simp] theorem growable_merge (src : BitSet) : (s.merge src).set.growable = s.growable :=
  s.growable_ensure_andThen fun _ => rfl

section sets

variable {a b src : BitSet}

theorem result_inter (h : s.Fits (commonExtent a b)) : (s.inter a b).result = .ok () := by
  rw [inter, s.ensure_andThen_of_fits _ h]
  rfl

theorem inter_of_not_fits (h : ¬ s.Fits (commonExtent a b)) : s.inter a b =
    ⟨.error ⟨commonExtent a b, s.wordCount⟩, s, [.refused ⟨commonExtent a b, s.wordCount⟩]⟩ :=
  s.ensure_andThen_of_not_fits _ h

theorem wordCount_inter (h : s.Fits (commonExtent a b)) :
    (s.inter a b).set.wordCount = room s.wordCount (commonExtent a b) :=
  s.wordCount_ensure_andThen (fun t => t.wordCount_overwrite _) h

theorem result_union (h : s.Fits (max a.extent b.extent)) : (s.union a b).result = .ok () := by
  rw [union, s.ensure_andThen_of_fits _ h]
  rfl

theorem union_of_not_fits (h : ¬ s.Fits (max a.extent b.extent)) : s.union a b =
    ⟨.error ⟨max a.extent b.extent, s.wordCount⟩, s,
      [.refused ⟨max a.extent b.extent, s.wordCount⟩]⟩ :=
  s.ensure_andThen_of_not_fits _ h

theorem wordCount_union (h : s.Fits (max a.extent b.extent)) :
    (s.union a b).set.wordCount = room s.wordCount (max a.extent b.extent) :=
  s.wordCount_ensure_andThen (fun t => t.wordCount_overwrite _) h

theorem merge_of_not_fits (h : ¬ s.Fits src.extent) : s.merge src =
    ⟨.error ⟨src.extent, s.wordCount⟩, s, [.refused ⟨src.extent, s.wordCount⟩]⟩ :=
  s.ensure_andThen_of_not_fits _ h

theorem wordCount_merge (h : s.Fits src.extent) :
    (s.merge src).set.wordCount = room s.wordCount src.extent :=
  s.wordCount_ensure_andThen (fun t => t.wordCount_overwrite _) h

end sets

end BitSet

end PackedSet
