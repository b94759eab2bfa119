import PackedSet.PowerOfTwo
import PackedSet.BitSet.Outcome

/-!
# Growth

A growable set that needs more words takes the least power of two that is enough. `ensure` makes
room for a result: it leaves a set that is large enough alone, and refuses for a fixed set that is
too small.
-/

namespace PackedSet.BitSet

variable (s : BitSet)

def widen (count : Nat) : BitSet := { s with words := s.words.rightpad count 0 }

def grow (required : Nat) : Outcome Unit :=
  let count := leastPowerOfTwo required
  ⟨(), s.widen count, [.grew s.wordCount count]⟩

def ensure (required : Nat) : Outcome (Except SizeMismatch Unit) :=
  if required ≤ s.wordCount then .done s
  else if s.growable then (s.grow required).map .ok
  else
    let mismatch : SizeMismatch := ⟨required, s.wordCount⟩
    ⟨.error mismatch, s, [.refused mismatch]⟩

@[simp] theorem growable_widen (count : Nat) : (s.widen count).growable = s.growable := rfl

theorem wordCount_widen {count : Nat} (h : s.wordCount ≤ count) :
    (s.widen count).wordCount = count := by
  have h' : s.words.size ≤ count := h
  simp only [wordCount, widen, Array.rightpad, Array.size_append, Array.size_replicate]
  omega

@[simp] theorem wordAt_widen (count i : Nat) : (s.widen count).wordAt i = s.wordAt i := by
  simp only [wordAt, widen, Array.rightpad, Array.getD_eq_getD_getElem?, Array.getElem?_append,
    Array.getElem?_replicate]
  split
  · rfl
  · rename_i h
    rw [Array.getElem?_eq_none (Nat.not_lt.1 h)]
    split <;> rfl

@[simp] theorem contains_widen (count n : Nat) : (s.widen count).contains n = s.contains n := by
  simp [contains]

theorem wordCount_grow {required : Nat} (h : s.wordCount ≤ required) :
    (s.grow required).set.wordCount = leastPowerOfTwo required :=
  s.wordCount_widen (Nat.le_trans h (le_leastPowerOfTwo required))

@[simp] theorem contains_grow (required n : Nat) :
    (s.grow required).set.contains n = s.contains n := s.contains_widen _ n

@[simp] theorem growable_grow (required : Nat) :
    (s.grow required).set.growable = s.growable := rfl

theorem ensure_of_le {required : Nat} (h : required ≤ s.wordCount) :
    s.ensure required = .done s := if_pos h

theorem ensure_of_growable {required : Nat} (h : s.wordCount < required)
    (hg : s.growable = true) : s.ensure required = (s.grow required).map .ok := by
  rw [ensure, if_neg (Nat.not_le.2 h), if_pos hg]

theorem ensure_of_fixed {required : Nat} (h : s.wordCount < required)
    (hg : s.growable = false) : s.ensure required =
      ⟨.error ⟨required, s.wordCount⟩, s, [.refused ⟨required, s.wordCount⟩]⟩ := by
  rw [ensure, if_neg (Nat.not_le.2 h), hg, if_neg Bool.false_ne_true]

@[simp] theorem growable_ensure (required : Nat) :
    (s.ensure required).set.growable = s.growable := by
  unfold ensure
  split
  · rfl
  · split <;> rfl

@[simp] theorem wordAt_ensure (required i : Nat) :
    (s.ensure required).set.wordAt i = s.wordAt i := by
  unfold ensure
  split
  · rfl
  · split
    · exact s.wordAt_widen _ i
    · rfl

@[simp] theorem contains_ensure (required n : Nat) :
    (s.ensure required).set.contains n = s.contains n := by
  rw [contains, wordAt_ensure, contains]

theorem ensure_result_eq_ok_iff {required : Nat} :
    (s.ensure required).result = .ok () ↔ required ≤ s.wordCount ∨ s.growable = true := by
  unfold ensure
  split
  · rename_i h
    exact iff_of_true rfl (Or.inl h)
  · rename_i h
    split
    · rename_i hg
      exact iff_of_true rfl (Or.inr hg)
    · rename_i hg
      exact iff_of_false (fun he => by cases he) (not_or.2 ⟨h, hg⟩)

theorem ensure_result_cases (required : Nat) :
    (s.ensure required).result = .ok () ∨
      (s.ensure required).result = .error ⟨required, s.wordCount⟩ := by
  unfold ensure
  split
  · exact Or.inl rfl
  · split
    · exact Or.inl rfl
    · exact Or.inr rfl

theorem le_wordCount_ensure {required : Nat} (h : (s.ensure required).result = .ok ()) :
    required ≤ (s.ensure required).set.wordCount := by
  rcases Nat.lt_or_ge s.wordCount required with hr | hr
  · have hg := ((s.ensure_result_eq_ok_iff).1 h).resolve_left (Nat.not_le.2 hr)
    rw [s.ensure_of_growable hr hg, Outcome.set_map, s.wordCount_grow (Nat.le_of_lt hr)]
    exact le_leastPowerOfTwo required
  · rw [s.ensure_of_le hr]
    exact hr

end PackedSet.BitSet
