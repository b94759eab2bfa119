import PackedSet.Proofs.Cursor.Ahead
import PackedSet.Proofs.Shift
import Mathlib.Order.Bounds.Basic

/-!
# A call as a scan

`Turns` runs the loop of a call without a bound on its turns: a turn looks at the rest of the word
under the cursor, and if no member is left there, it goes on behind the zero words that follow. The
loop always ends, after two turns at most, and what it ends with is what `next?` gives and what a
scan of the positions one by one finds.
-/

namespace PackedSet.Cursor

variable (c : Cursor)

def shifted : Word := c.set.wordAt c.index >>> UInt32.ofNat (bitOffset c.position)

/-- The indexes behind the word under the cursor where stepping over zero words stops: those of a
word that is not zero, and those past the words. -/
def stops : Set Nat := {i | c.index < i ∧ (i < c.set.wordCount → c.set.wordAt i ≠ 0)}

/-- The loop of a call ends after so many turns with a result and a cursor. -/
inductive Turns : Cursor → Nat → Option Nat × Cursor → Prop
  | ended {c : Cursor} (hc : c.set.capacity ≤ c.position) : Turns c 0 (none, c)
  | found {c : Cursor} (hc : c.position < c.set.capacity) (hword : c.shifted ≠ 0) :
      Turns c 1 (some (c.position + Word.trailingZeros c.shifted),
        { c with position := c.position + Word.trailingZeros c.shifted + 1 })
  | skipped {c : Cursor} {i turns : Nat} {result : Option Nat × Cursor}
      (hc : c.position < c.set.capacity) (hword : c.shifted = 0) (hi : IsLeast c.stops i)
      (hrest : Turns { c with position := Word.width * i } turns result) :
      Turns c (turns + 1) result

/-- Tests the positions under the capacity one by one, from the cursor on. -/
def scan : Option Nat × Cursor :=
  match (List.range' c.position (c.set.capacity - c.position)).find? c.set.contains with
  | some n => (some n, { c with position := n + 1 })
  | none => (none, { c with position := c.set.capacity })

theorem nextSet?_index : Word.nextSet? (c.set.wordAt c.index) (bitOffset c.position) =
    if c.shifted = 0 then none else some (bitOffset c.position + Word.trailingZeros c.shifted) :=
  Word.nextSet?_eq_shiftRight (bitOffset_lt c.position) _

theorem look_of_shifted_ne_zero (h : c.shifted ≠ 0) :
    c.look = .found (c.position + Word.trailingZeros c.shifted) := by
  have hposition : Word.width * c.index + bitOffset c.position = c.position :=
    width_mul_wordIndex_add c.position
  rw [look, nextSet?_index, if_neg h]
  dsimp only
  rw [← Nat.add_assoc, hposition]

theorem look_of_shifted_eq_zero (h : c.shifted = 0) :
    c.look = .skip
      (Word.width * c.skipZero (c.set.wordCount - (c.index + 1)) (c.index + 1)) := by
  rw [look, nextSet?_index, if_pos h]

theorem isLeast_stops (h : c.index < c.set.wordCount) :
    IsLeast c.stops (c.skipZero (c.set.wordCount - (c.index + 1)) (c.index + 1)) := by
  have hle := c.skipZero_le (c.set.wordCount - (c.index + 1)) (c.index + 1)
  refine ⟨⟨c.le_skipZero _ _, fun hlt => c.wordAt_skipZero_ne_zero (by omega)⟩, ?_⟩
  rintro i ⟨hindex, hword⟩
  by_contra hlt
  have hi := Nat.not_le.1 hlt
  exact hword (by omega) (c.wordAt_of_lt_skipZero hindex hi)

theorem isLeast_stops_le {i : Nat} (hc : c.position < c.set.capacity) (hi : IsLeast c.stops i) :
    i ≤ c.set.wordCount :=
  hi.2 ⟨wordIndex_lt_iff.2 hc, fun hlt => absurd hlt (Nat.lt_irrefl _)⟩

theorem eq_or_lt_of_isLeast_stops {i : Nat} (hc : c.position < c.set.capacity)
    (hi : IsLeast c.stops i) :
    i = c.set.wordCount ∨ i < c.set.wordCount ∧ c.set.wordAt i ≠ 0 :=
  (Nat.eq_or_lt_of_le (c.isLeast_stops_le hc hi)).imp_right fun hlt => ⟨hlt, hi.1.2 hlt⟩

theorem look_of_isLeast_stops (hc : c.position < c.set.capacity) (h : c.shifted = 0) {i : Nat}
    (hi : IsLeast c.stops i) : c.look = .skip (Word.width * i) := by
  rw [c.look_of_shifted_eq_zero h, hi.unique (c.isLeast_stops (wordIndex_lt_iff.2 hc))]

theorem wordIndex_width_mul (i : Nat) : wordIndex (Word.width * i) = i :=
  wordIndex_width_mul_add (show 0 < Word.width by decide)

theorem shifted_width_mul (i : Nat) :
    shifted { c with position := Word.width * i } = c.set.wordAt i := by
  have hoffset : bitOffset (Word.width * i) = 0 :=
    bitOffset_width_mul_add (show 0 < Word.width by decide)
  simp [shifted, index, wordIndex_width_mul, hoffset]

namespace Turns

variable {c : Cursor} {turns : Nat} {result : Option Nat × Cursor}

/-- Every turn but the last passes a word, so there are no more turns than words ahead. -/
theorem le_wordCount (h : Turns c turns result) : turns ≤ c.set.wordCount - c.index := by
  induction h with
  | ended hc => exact Nat.zero_le _
  | @found c hc hword =>
      have hindex : c.index < c.set.wordCount := wordIndex_lt_iff.2 hc
      omega
  | @skipped c i turns result hc hword hi hrest ih =>
      have hindex : c.index < c.set.wordCount := wordIndex_lt_iff.2 hc
      have hpast : c.index < i := hi.1.1
      rw [index, wordIndex_width_mul] at ih
      change turns ≤ c.set.wordCount - i at ih
      omega

theorem settle_eq (h : Turns c turns result) {looks : Nat} (hlooks : turns ≤ looks) :
    c.settle looks = some result := by
  -- On the run; any bound that leaves room for its turns will do, so the bound goes down with them.
  induction h generalizing looks with
  | ended hc => exact settle_of_capacity_le _ hc looks
  | found hc hword =>
      obtain ⟨more, rfl⟩ := Nat.exists_eq_add_one.2 hlooks
      exact settle_of_found _ hc (look_of_shifted_ne_zero _ hword) more
  | skipped hc hword hi hrest ih =>
      obtain ⟨more, rfl⟩ := Nat.exists_eq_add_one.2 (Nat.lt_of_lt_of_le (Nat.succ_pos _) hlooks)
      rw [settle_of_skip _ hc (look_of_isLeast_stops _ hc hword hi)]
      exact ih (Nat.le_of_succ_le_succ hlooks)

theorem position_le (h : Turns c turns result) (hc : c.position ≤ c.set.capacity) :
    result.2.position ≤ c.set.capacity := by
  induction h with
  | ended hend => exact hc
  | found hlt hword =>
      exact BitSet.lt_capacity_of_mem (look_eq_found _ (look_of_shifted_ne_zero _ hword)).1
  | @skipped c i turns result hlt hword hi hrest ih =>
      exact ih (Nat.mul_le_mul_left _ (c.isLeast_stops_le hlt hi))

theorem next?_eq (h : Turns c turns result) : c.next? = result := by
  have hlooks : turns ≤ c.set.wordCount := h.le_wordCount.trans (Nat.sub_le _ _)
  rw [next?, h.settle_eq hlooks, Option.getD_some]

/-- Behind a skip the loop is at the end or finds a member, so no skip comes after a skip. -/
theorem le_two (h : Turns c turns result) : turns ≤ 2 := by
  cases h with
  | ended hc => exact Nat.zero_le 2
  | found hc hword => exact Nat.le_succ 1
  | @skipped _ i _ _ hc hword hi hrest =>
      cases hrest with
      | ended hc' => exact Nat.le_succ 1
      | found hc' hword' => exact Nat.le_refl 2
      | skipped hc' hword' hi' hrest' =>
          -- At the start of a word the shifted word is the word, which the first skip chose.
          have hlt : i < c.set.wordCount := Nat.lt_of_mul_lt_mul_left hc'
          rw [shifted_width_mul] at hword'
          exact absurd hword' (hi.1.2 hlt)

end Turns

theorem exists_turns : ∃ turns result, Turns c turns result := by
  by_cases hc : c.position < c.set.capacity
  · by_cases hword : c.shifted = 0
    · have hi := c.isLeast_stops (wordIndex_lt_iff.2 hc)
      rcases c.eq_or_lt_of_isLeast_stops hc hi with hend | ⟨hlt, hnext⟩
      · exact ⟨_, _, .skipped hc hword hi (.ended (Nat.le_of_eq (congrArg _ hend.symm)))⟩
      · refine ⟨_, _, .skipped hc hword hi (.found ?_ ?_)⟩
        · exact Nat.mul_lt_mul_of_pos_left hlt (by decide)
        · rwa [shifted_width_mul]
    · exact ⟨_, _, .found hc hword⟩
  · exact ⟨_, _, .ended (Nat.not_lt.1 hc)⟩

theorem turns_next? : ∃ turns, Turns c turns c.next? := by
  obtain ⟨turns, result, h⟩ := c.exists_turns
  exact ⟨turns, h.next?_eq ▸ h⟩

/-- Two looks settle every call, however many words there are. -/
theorem settle_two : c.settle 2 = some c.next? := by
  obtain ⟨turns, h⟩ := c.turns_next?
  exact h.settle_eq h.le_two

theorem scan_cases :
    (∃ n, IsLeast {m | m ∈ c.set ∧ c.position ≤ m} n ∧
      c.scan = (some n, { c with position := n + 1 })) ∨
    ((∀ m, c.position ≤ m → m ∉ c.set) ∧
      c.scan = (none, { c with position := c.set.capacity })) := by
  rw [scan]
  cases hfind : (List.range' c.position (c.set.capacity - c.position)).find? c.set.contains with
  | some n =>
      obtain ⟨hn, hrange, hbefore⟩ := List.find?_range'_eq_some.1 hfind
      refine Or.inl ⟨n, ⟨⟨hn, (List.mem_range'_1.1 hrange).1⟩, ?_⟩, rfl⟩
      rintro m ⟨hm, hposition⟩
      by_contra hlt
      have hclear := hbefore m hposition (Nat.not_le.1 hlt)
      rw [BitSet.mem_iff.1 hm] at hclear
      cases hclear
  | none =>
      refine Or.inr ⟨fun m hposition hm => ?_, rfl⟩
      have hlt := BitSet.lt_capacity_of_mem hm
      exact List.find?_eq_none.1 hfind m (List.mem_range'_1.2 ⟨hposition, by omega⟩) hm

theorem next?_eq_scan (h : c.position ≤ c.set.capacity) : c.next? = c.scan := by
  rcases c.next?_cases with ⟨n, hnext, hn, hp, hmin⟩ | ⟨p, hnext, hp, hnone⟩
  · have hleast : IsLeast {m | m ∈ c.set ∧ c.position ≤ m} n :=
      ⟨⟨hn, hp⟩, fun m hm => Nat.not_lt.1 fun hlt => hmin m hm.2 hlt hm.1⟩
    rcases c.scan_cases with ⟨n', hleast', hscan⟩ | ⟨hnone, -⟩
    · rw [hnext, hscan, hleast.unique hleast']
    · exact absurd hn (hnone n hp)
  · obtain ⟨turns, hturns⟩ := c.turns_next?
    rw [hnext] at hturns
    have hend : p = c.set.capacity := Nat.le_antisymm (hturns.position_le h) hp
    rcases c.scan_cases with ⟨n', hleast', -⟩ | ⟨-, hscan⟩
    · exact absurd hleast'.1.1 (hnone n' hleast'.1.2)
    · rw [hnext, hscan, hend]

theorem scan_eq_some_iff {n : Nat} :
    c.scan.1 = some n ↔ IsLeast {m | m ∈ c.set ∧ c.position ≤ m} n := by
  rcases c.scan_cases with ⟨n', hleast, hscan⟩ | ⟨hnone, hscan⟩
  · rw [hscan, Option.some_inj]
    exact ⟨fun heq => heq ▸ hleast, fun hleast' => hleast.unique hleast'⟩
  · rw [hscan]
    exact iff_of_false nofun fun hleast => hnone n hleast.1.2 hleast.1.1

theorem position_scan (h : c.position ≤ c.set.capacity) :
    c.position ≤ c.scan.2.position ∧ c.scan.2.position ≤ c.set.capacity := by
  rcases c.scan_cases with ⟨n, hleast, hscan⟩ | ⟨-, hscan⟩
  · rw [hscan]
    exact ⟨Nat.le_succ_of_le hleast.1.2, BitSet.lt_capacity_of_mem hleast.1.1⟩
  · rw [hscan]
    exact ⟨h, Nat.le_refl _⟩

theorem scan_snd :
    c.scan.2 = { c with position := (c.scan.1.map (· + 1)).getD c.set.capacity } := by
  rcases c.scan_cases with ⟨n, -, hscan⟩ | ⟨-, hscan⟩
  · rw [hscan]
    rfl
  · rw [hscan]
    rfl

/-- A skip goes on, to the end or to the start of a word that is not zero. -/
theorem lt_of_look_eq_skip {p : Nat} (hc : c.position < c.set.capacity) (h : c.look = .skip p) :
    c.position < p ∧
      (p = c.set.capacity ∨ p < c.set.capacity ∧ c.set.wordAt (wordIndex p) ≠ 0) := by
  obtain ⟨-, rfl⟩ := c.look_eq_skip h
  have hi := c.isLeast_stops (wordIndex_lt_iff.2 hc)
  refine ⟨wordIndex_lt_iff.1 hi.1.1, ?_⟩
  rcases c.eq_or_lt_of_isLeast_stops hc hi with hend | ⟨hlt, hword⟩
  · exact Or.inl (congrArg (Word.width * ·) hend)
  · refine Or.inr ⟨Nat.mul_lt_mul_of_pos_left hlt (by decide), ?_⟩
    rwa [wordIndex_width_mul]

/-- From a cursor in its set, the loop of a call ends after at most two turns, and in one way only:
with the least member at or after the cursor and the cursor one past it, or without one and the
cursor at the end. So the cursor never goes back and never leaves the set. There is no third turn
since a skip ends at the end or on a word that is not zero, so two looks settle the call. -/
theorem loop_finds_least (c : Cursor) (h : c.position ≤ c.set.capacity) :
    c.next? = c.scan ∧
    (∀ n, c.scan.1 = some n ↔ IsLeast {m | m ∈ c.set ∧ c.position ≤ m} n) ∧
    c.scan.2 = { c with position := (c.scan.1.map (· + 1)).getD c.set.capacity } ∧
    (c.position ≤ c.scan.2.position ∧ c.scan.2.position ≤ c.set.capacity) ∧
    (∃ turns, Turns c turns c.scan) ∧
    (∀ turns result, Turns c turns result → turns ≤ 2 ∧ result = c.scan) ∧
    c.settle 2 = some c.next? ∧
    ∀ p, c.position < c.set.capacity → c.look = .skip p → c.position < p ∧
      (p = c.set.capacity ∨ p < c.set.capacity ∧ c.set.wordAt (wordIndex p) ≠ 0) := by
  refine ⟨c.next?_eq_scan h, fun n => c.scan_eq_some_iff, c.scan_snd, c.position_scan h, ?_,
    fun turns result hturns => ?_, c.settle_two, fun p hc hskip => c.lt_of_look_eq_skip hc hskip⟩
  · obtain ⟨turns, hturns⟩ := c.turns_next?
    exact ⟨turns, c.next?_eq_scan h ▸ hturns⟩
  · exact ⟨hturns.le_two, hturns.next?_eq.symm.trans (c.next?_eq_scan h)⟩

/-- The rest of the word under the cursor is zero, but not that word, and not the last one. -/
theorem loop_finds_least_mid_word :
    let c : Cursor := ⟨⟨#[5, 0, 0, 1], false⟩, 3⟩
    c.position ≤ c.set.capacity ∧ c.next? = (some 96, { c with position := 97 }) ∧
      IsLeast {m | m ∈ c.set ∧ c.position ≤ m} 96 ∧
      ∀ turns result, Turns c turns result → turns ≤ 2 ∧ result = c.next? := by
  intro c
  have h : c.position ≤ c.set.capacity := by decide
  have hscan : c.scan = (some 96, { c with position := 97 }) := by decide +kernel
  obtain ⟨hnext, hleast, -, -, -, hturns, -⟩ := loop_finds_least c h
  refine ⟨h, hnext.trans hscan, (hleast 96).1 (congrArg Prod.fst hscan), ?_⟩
  rw [hnext]
  exact hturns

end PackedSet.Cursor
