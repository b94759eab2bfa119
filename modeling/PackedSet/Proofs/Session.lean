import PackedSet.Proofs.Refinement

/-!
# Sessions

A session is a list of calls on one set: edits, and queries, which leave the set as it is. No call
changes whether a set is growable, and a fixed set keeps its word count through every session.
-/

namespace PackedSet

/-- What each step of a chain keeps is kept by the chain. -/
theorem Outcome.forEach_invariant {α ε : Type} {step : BitSet → α → Outcome (Except ε Unit)}
    {P : BitSet → Prop} (hstep : ∀ s a, P s → P (step s a).set) {s : BitSet} (hs : P s)
    (items : List α) : P (forEach step s items).set := by
  induction items generalizing s with
  | nil => exact hs
  | cons a rest ih =>
      have hnext := hstep s a hs
      rw [forEach_cons]
      cases hr : (step s a).result with
      | ok u =>
          rw [andThen_of_ok hr]
          exact ih hnext
      | error e =>
          rw [andThen_of_error hr]
          exact hnext

inductive Call where
  | edit (change : Edit BitSet)
  | ask (query : Query BitSet)

namespace BitSet

variable (s : BitSet)

def after (s : BitSet) : Call → BitSet
  | .edit change => (change.apply s).set
  | .ask _ => s

def afterAll (calls : List Call) : BitSet := calls.foldl after s

def reply : Call → Option (Logged Answer)
  | .edit change => let o := change.apply s; some ⟨o.result, o.events⟩
  | .ask query => query.ask s

def log (s : BitSet) : List Call → List Event
  | [] => []
  | c :: rest => (s.reply c).elim [] Logged.events ++ log (s.after c) rest

@[simp] theorem growable_erase (n : Nat) : (s.erase n).set.growable = s.growable := by
  unfold erase
  split <;> rfl

@[simp] theorem growable_fill (n : Nat) : (s.fill n).set.growable = s.growable := by
  unfold fill
  split <;> rfl

@[simp] theorem growable_extend (positions : List Nat) :
    (s.extend positions).set.growable = s.growable :=
  Outcome.forEach_invariant (P := fun t => t.growable = s.growable)
    (fun t n ht => (t.growable_insert n).trans ht) rfl positions

@[simp] theorem growable_allocate : s.allocate.set.growable = s.growable := by
  by_cases h : s.growable = true ∨ s.firstFree? ≠ none
  · rw [s.allocate_eq_insert h]
    exact s.growable_insert _
  · rw [not_or, Bool.not_eq_true, not_not] at h
    rw [s.allocate_of_full h.1 h.2]

@[simp] theorem growable_allocateMany (count : Nat) :
    (s.allocateMany count).set.growable = s.growable := by
  induction count generalizing s with
  | zero => rfl
  | succ count ih => exact (ih s.allocate.set).trans s.growable_allocate

@[simp] theorem growable_copyFrom (src : BitSet) :
    (s.copyFrom src).set.growable = s.growable := by
  unfold copyFrom
  split <;> rfl

theorem growable_apply (e : Edit BitSet) : (e.apply s).set.growable = s.growable := by
  cases e with
  | insert n => exact s.growable_insert n
  | erase n => exact s.growable_erase n
  | clear => rfl
  | fill n => exact s.growable_fill n
  | allocate => exact s.growable_allocate
  | allocateMany count => exact s.growable_allocateMany count
  | extend positions => exact s.growable_extend positions
  | copyFrom src => exact s.growable_copyFrom src
  | inter a b => exact s.growable_inter a b
  | union a b => exact s.growable_union a b
  | merge src => exact s.growable_merge src
  | meet src => rfl

theorem growable_after (c : Call) : (s.after c).growable = s.growable := by
  cases c with
  | edit e => exact s.growable_apply e
  | ask q => rfl

theorem growable_afterAll (calls : List Call) : (s.afterAll calls).growable = s.growable := by
  induction calls generalizing s with
  | nil => rfl
  | cons c rest ih => exact (ih (s.after c)).trans (s.growable_after c)

@[simp] theorem wordCount_erase (n : Nat) : (s.erase n).set.wordCount = s.wordCount := by
  by_cases h : n < s.capacity
  · rw [s.erase_of_lt h]
    exact s.wordCount_unmark n
  · rw [s.erase_of_capacity_le (Nat.not_lt.1 h)]
    rfl

@[simp] theorem wordCount_copyFrom (src : BitSet) :
    (s.copyFrom src).set.wordCount = s.wordCount := by
  by_cases h : s.wordCount = src.wordCount
  · rw [copyFrom, if_pos h]
    exact h.symm
  · rw [copyFrom, if_neg h]
    rfl

section fixed

variable {s : BitSet} (hg : s.growable = false)
include hg

theorem room_of_fits_of_fixed {required : Nat} (h : s.Fits required) :
    room s.wordCount required = s.wordCount :=
  room_of_le (h.resolve_right (hg ▸ Bool.false_ne_true))

theorem wordCount_insert_of_fixed (n : Nat) : (s.insert n).set.wordCount = s.wordCount := by
  by_cases h : s.Fits (wordIndex n + 1)
  · rw [s.wordCount_insert h, room_of_fits_of_fixed hg h]
  · rw [s.insert_of_not_fits h]
    rfl

theorem wordCount_allocate_of_fixed : s.allocate.set.wordCount = s.wordCount := by
  by_cases h : s.growable = true ∨ s.firstFree? ≠ none
  · rw [s.allocate_eq_insert h]
    exact wordCount_insert_of_fixed hg _
  · rw [not_or, not_not] at h
    rw [s.allocate_of_full hg h.2]

theorem wordCount_allocateMany_of_fixed (count : Nat) :
    (s.allocateMany count).set.wordCount = s.wordCount := by
  induction count generalizing s with
  | zero => rfl
  | succ count ih =>
      exact (ih (s.growable_allocate.trans hg)).trans (wordCount_allocate_of_fixed hg)

theorem wordCount_extend_of_fixed (positions : List Nat) :
    (s.extend positions).set.wordCount = s.wordCount := by
  have hkeep : ∀ t n, t.growable = false ∧ t.wordCount = s.wordCount →
      (insert t n).set.growable = false ∧ (insert t n).set.wordCount = s.wordCount :=
    fun t n ht => ⟨(t.growable_insert n).trans ht.1, (wordCount_insert_of_fixed ht.1 n).trans ht.2⟩
  exact (Outcome.forEach_invariant hkeep ⟨hg, rfl⟩ positions).2

theorem wordCount_ensure_andThen_of_fixed {α : Type} {required : Nat}
    {next : BitSet → Outcome (Except SizeMismatch α)}
    (hnext : ∀ t, (next t).set.wordCount = t.wordCount) :
    ((s.ensure required).andThen next).set.wordCount = s.wordCount := by
  by_cases h : s.Fits required
  · rw [s.wordCount_ensure_andThen hnext h, room_of_fits_of_fixed hg h]
  · rw [s.ensure_andThen_of_not_fits next h]

theorem wordCount_apply_of_fixed (e : Edit BitSet) :
    (e.apply s).set.wordCount = s.wordCount := by
  cases e with
  | insert n => exact wordCount_insert_of_fixed hg n
  | erase n => exact s.wordCount_erase n
  | clear => exact s.wordCount_clear
  | fill n => exact s.wordCount_fill n
  | allocate => exact wordCount_allocate_of_fixed hg
  | allocateMany count => exact wordCount_allocateMany_of_fixed hg count
  | extend positions => exact wordCount_extend_of_fixed hg positions
  | copyFrom src => exact s.wordCount_copyFrom src
  | inter a b => exact wordCount_ensure_andThen_of_fixed hg fun t => t.wordCount_overwrite _
  | union a b => exact wordCount_ensure_andThen_of_fixed hg fun t => t.wordCount_overwrite _
  | merge src => exact wordCount_ensure_andThen_of_fixed hg fun t => t.wordCount_overwrite _
  | meet src => exact s.wordCount_meet src

theorem wordCount_afterAll_of_fixed (calls : List Call) :
    (s.afterAll calls).wordCount = s.wordCount := by
  induction calls generalizing s with
  | nil => rfl
  | cons c rest ih =>
      have hc : (s.after c).wordCount = s.wordCount := by
        cases c with
        | edit e => exact wordCount_apply_of_fixed hg e
        | ask q => rfl
      exact (ih ((s.growable_after c).trans hg)).trans hc

end fixed

end BitSet

end PackedSet
