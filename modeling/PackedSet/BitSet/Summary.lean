import PackedSet.BitSet.Basic

/-!
# Summaries

A short account of a set that shows every word of it: equal neighbouring words are counted together
in runs.
-/

namespace PackedSet

def consRun {α : Type} [DecidableEq α] (a : α) : List (Nat × α) → List (Nat × α)
  | [] => [(1, a)]
  | (count, b) :: rest => if a = b then (count + 1, b) :: rest else (1, a) :: (count, b) :: rest

/-- The lengths and values of the longest runs of equal neighbours. -/
def runs {α : Type} [DecidableEq α] (values : List α) : List (Nat × α) := values.foldr consRun []

def expand {α : Type} (encoded : List (Nat × α)) : List α :=
  encoded.flatMap fun (count, a) => List.replicate count a

theorem expand_runs {α : Type} [DecidableEq α] (values : List α) : expand (runs values) = values := by
  induction values with
  | nil => rfl
  | cons a rest ih =>
      have hcons : ∀ encoded : List (Nat × α), expand (consRun a encoded) = a :: expand encoded := by
        intro encoded
        cases encoded with
        | nil => rfl
        | cons run tail =>
            obtain ⟨count, b⟩ := run
            by_cases h : a = b
            · simp [consRun, expand, h, List.replicate_succ]
            · simp [consRun, expand, h]
      rw [runs, List.foldr_cons, hcons]
      exact congrArg (a :: ·) ih

namespace BitSet

structure Summary where
  growable : Bool
  capacity : Nat
  wordCount : Nat
  runs : List (Nat × Word)
deriving DecidableEq

def wordRuns (s : BitSet) : List (Nat × Word) := runs s.words.toList

def summary (s : BitSet) : Summary := ⟨s.growable, s.capacity, s.wordCount, s.wordRuns⟩

end BitSet

end PackedSet
