import PackedSet.Cursor.Progress
import PackedSet.Cursor.Walk
import Mathlib.Data.List.Sort

/-!
# What is ahead of a cursor

`ahead` lists the members at or after a cursor in increasing order. A call of `next?` gives the
head of that list and leaves its tail ahead, whatever zero words lie between; the other ways to
read a cursor follow from this one. No cursor ever leaves its set.
-/

namespace PackedSet

theorem BitSet.toList_congr {s t : BitSet} (h : ∀ n, s.contains n = t.contains n) :
    s.toList = t.toList := by
  refine s.pairwise_toList.eq_of_mem_iff t.pairwise_toList fun n => ?_
  rw [mem_toList, mem_toList, mem_iff, mem_iff, h]

theorem BitSet.toList_eq_iff {s t : BitSet} : s.toList = t.toList ↔ s.sameMembers t = true := by
  rw [sameMembers_iff]
  refine ⟨fun hlists n => ?_, toList_congr⟩
  rw [Bool.eq_iff_iff, ← mem_iff, ← mem_iff, ← mem_toList, hlists, mem_toList]

namespace Cursor

variable (c : Cursor)

/-- The members at or after the cursor, in increasing order. -/
def ahead : List Nat := c.set.toList.filter fun n => decide (c.position ≤ n)

@[simp] theorem mem_ahead {n : Nat} : n ∈ c.ahead ↔ n ∈ c.set ∧ c.position ≤ n := by
  rw [ahead, List.mem_filter, BitSet.mem_toList, decide_eq_true_eq]

theorem pairwise_ahead : c.ahead.Pairwise (· < ·) := c.set.pairwise_toList.filter _

theorem ahead_eq_nil {p : Nat} (h : ∀ m, p ≤ m → m ∉ c.set) :
    ahead { c with position := p } = [] := by
  refine List.eq_nil_iff_forall_not_mem.2 fun m hm => ?_
  obtain ⟨hmem, hp⟩ := (mem_ahead _).1 hm
  exact h m hp hmem

theorem ahead_eq_cons {n : Nat} (hn : n ∈ c.set) (hp : c.position ≤ n)
    (hmin : ∀ m, c.position ≤ m → m < n → m ∉ c.set) :
    c.ahead = n :: ahead { c with position := n + 1 } := by
  refine c.pairwise_ahead.eq_of_mem_iff ?_ fun m => ?_
  · refine List.pairwise_cons.2 ⟨fun m hm => ?_, pairwise_ahead _⟩
    have := ((mem_ahead _).1 hm).2
    exact Nat.lt_of_succ_le this
  · rw [List.mem_cons, mem_ahead, mem_ahead]
    constructor
    · rintro ⟨hm, hle⟩
      rcases Nat.lt_trichotomy m n with hlt | rfl | hlt
      · exact absurd hm (hmin m hle hlt)
      · exact Or.inl rfl
      · exact Or.inr ⟨hm, hlt⟩
    · rintro (rfl | ⟨hm, hlt⟩)
      · exact ⟨hn, hp⟩
      · have hlt' : n < m := hlt
        exact ⟨hm, by omega⟩

theorem settle_of_capacity_le (h : c.set.capacity ≤ c.position) (looks : Nat) :
    c.settle looks = some (none, c) := by
  cases looks with
  | zero => exact if_neg (Nat.not_lt.2 h)
  | succ looks => exact if_neg (Nat.not_lt.2 h)

theorem settle_of_found (hc : c.position < c.set.capacity) {n : Nat} (h : c.look = .found n)
    (looks : Nat) : c.settle (looks + 1) = some (some n, { c with position := n + 1 }) := by
  rw [settle, if_pos hc, h]

theorem settle_of_skip (hc : c.position < c.set.capacity) {p : Nat} (h : c.look = .skip p)
    (looks : Nat) : c.settle (looks + 1) = settle { c with position := p } looks := by
  rw [settle, if_pos hc, h]

/-- A call finds the least member at or after the cursor, or there is none. -/
theorem next?_cases :
    (∃ n, c.next? = (some n, { c with position := n + 1 }) ∧ n ∈ c.set ∧ c.position ≤ n ∧
      ∀ m, c.position ≤ m → m < n → m ∉ c.set) ∨
    (∃ p, c.next? = (none, { c with position := p }) ∧ c.set.capacity ≤ p ∧
      ∀ m, c.position ≤ m → m ∉ c.set) := by
  by_cases hc : c.position < c.set.capacity
  · have hi : c.index < c.set.wordCount := wordIndex_lt_iff.2 hc
    obtain ⟨looks, hlooks⟩ := Nat.exists_eq_add_one.2 (Nat.lt_of_le_of_lt (Nat.zero_le _) hi)
    rw [next?, hlooks]
    cases hl : c.look with
    | found n =>
        obtain ⟨hn, hp, hmin⟩ := c.look_eq_found hl
        exact Or.inl ⟨n, by rw [c.settle_of_found hc hl, Option.getD_some], hn, hp, hmin⟩
    | skip p =>
        obtain ⟨hnone, hp⟩ := c.look_eq_skip hl
        rw [c.settle_of_skip hc hl]
        rcases c.look_of_skip hl hc with hend | ⟨hlt, n, hfound⟩
        · refine Or.inr ⟨p, ?_, Nat.le_of_eq hend.symm, fun m hm hmem => ?_⟩
          · rw [settle_of_capacity_le _ (Nat.le_of_eq hend.symm), Option.getD_some]
          · exact hnone m hm (hend ▸ BitSet.lt_capacity_of_mem hmem) hmem
        · obtain ⟨hn, hpn, hmin⟩ := look_eq_found _ hfound
          have hle := c.le_skipZero (c.set.wordCount - (c.index + 1)) (c.index + 1)
          -- the word behind the skip is a second one, so a second look is left
          have hmore : c.index + 1 < c.set.wordCount := by
            rw [hp, BitSet.capacity] at hlt
            have := Nat.lt_of_mul_lt_mul_left hlt
            omega
          obtain ⟨more, hmore⟩ := Nat.exists_eq_add_one.2 (show 0 < looks by omega)
          have hpos := width_mul_wordIndex_add c.position
          have hoff := bitOffset_lt c.position
          have hcp : c.position ≤ p := by
            have := Nat.mul_le_mul_left Word.width hle
            rw [← hp, Nat.mul_add] at this
            change Word.width * c.index + _ = _ at hpos
            omega
          refine Or.inl ⟨n, ?_, hn, Nat.le_trans hcp hpn, fun m hm hmn => ?_⟩
          · rw [hmore, settle_of_found _ hlt hfound, Option.getD_some]
          · by_cases hmp : m < p
            · exact hnone m hm hmp
            · exact hmin m (Nat.not_lt.1 hmp) hmn
  · have hle := Nat.not_lt.1 hc
    refine Or.inr ⟨c.position, ?_, hle, fun m hm hmem => ?_⟩
    · rw [next?, c.settle_of_capacity_le hle, Option.getD_some]
    · have := BitSet.lt_capacity_of_mem hmem
      omega

/-- `next?` gives the head of what is ahead and leaves the tail ahead. -/
theorem next?_ahead : c.next?.1 = c.ahead.head? ∧ c.next?.2.ahead = c.ahead.tail ∧
    c.next?.2.set = c.set := by
  rcases c.next?_cases with ⟨n, hnext, hn, hp, hmin⟩ | ⟨p, hnext, hp, hnone⟩
  · rw [hnext, c.ahead_eq_cons hn hp hmin]
    exact ⟨rfl, rfl, rfl⟩
  · have hnow : c.ahead = [] := c.ahead_eq_nil hnone
    have hlater : ahead { c with position := p } = [] :=
      c.ahead_eq_nil fun m hm hmem => absurd (BitSet.lt_capacity_of_mem hmem) (by omega)
    rw [hnext, hnow, hlater]
    exact ⟨rfl, rfl, rfl⟩

theorem next?_of_ahead_eq_nil (h : c.ahead = []) :
    ∃ after, c.next? = (none, after) ∧ after.ahead = [] ∧ after.set = c.set := by
  obtain ⟨hhead, htail, hset⟩ := c.next?_ahead
  rw [h] at hhead htail
  exact ⟨c.next?.2, Prod.ext hhead rfl, htail, hset⟩

theorem next?_of_ahead_eq_cons {n : Nat} {rest : List Nat} (h : c.ahead = n :: rest) :
    ∃ after, c.next? = (some n, after) ∧ after.ahead = rest ∧ after.set = c.set := by
  obtain ⟨hhead, htail, hset⟩ := c.next?_ahead
  rw [h] at hhead htail
  exact ⟨c.next?.2, Prod.ext hhead rfl, htail, hset⟩

theorem nth?_ahead (count : Nat) : (c.nth? count).1 = c.ahead[count]? ∧
    (c.nth? count).2.ahead = c.ahead.drop (count + 1) ∧ (c.nth? count).2.set = c.set := by
  induction count generalizing c with
  | zero =>
      rw [nth?, List.drop_one, ← List.head?_eq_getElem?]
      exact c.next?_ahead
  | succ count ih =>
      cases ha : c.ahead with
      | nil =>
          obtain ⟨after, hnext, hafter, hset⟩ := c.next?_of_ahead_eq_nil ha
          rw [nth?, hnext]
          exact ⟨rfl, hafter, hset⟩
      | cons n rest =>
          obtain ⟨after, hnext, hafter, hset⟩ := c.next?_of_ahead_eq_cons ha
          obtain ⟨hresult, hdrop, hkeep⟩ := ih after
          rw [hafter] at hresult hdrop
          rw [nth?, hnext]
          exact ⟨hresult, hdrop, hkeep.trans hset⟩

theorem takeOnto_ahead (taken : List Nat) (count : Nat) :
    (takeOnto taken c count).1 = taken.reverse ++ c.ahead.take count ∧
      (takeOnto taken c count).2.ahead = c.ahead.drop count ∧
      (takeOnto taken c count).2.set = c.set := by
  induction count generalizing c taken with
  | zero => exact ⟨(List.append_nil _).symm, rfl, rfl⟩
  | succ count ih =>
      cases ha : c.ahead with
      | nil =>
          obtain ⟨after, hnext, hafter, hset⟩ := c.next?_of_ahead_eq_nil ha
          rw [takeOnto, hnext]
          exact ⟨(List.append_nil _).symm, hafter, hset⟩
      | cons n rest =>
          obtain ⟨after, hnext, hafter, hset⟩ := c.next?_of_ahead_eq_cons ha
          obtain ⟨hresult, hdrop, hkeep⟩ := ih after (n :: taken)
          rw [hafter] at hresult hdrop
          rw [takeOnto, hnext]
          refine ⟨hresult.trans ?_, hdrop, hkeep.trans hset⟩
          rw [List.reverse_cons, List.append_assoc, List.singleton_append, List.take_succ_cons]

theorem take_ahead (count : Nat) : (c.take count).1 = c.ahead.take count ∧
    (c.take count).2.ahead = c.ahead.drop count ∧ (c.take count).2.set = c.set :=
  c.takeOnto_ahead [] count

theorem length_ahead_le : c.ahead.length ≤ c.set.capacity := by
  have hrange : c.set.toList.length ≤ (List.range c.set.capacity).length :=
    List.length_filter_le _ _
  have hfilter : c.ahead.length ≤ c.set.toList.length := List.length_filter_le _ _
  rw [List.length_range] at hrange
  omega

/-- Reading all that is left uses everything that is ahead. -/
theorem rest_ahead : c.rest.1 = c.ahead ∧ c.rest.2.ahead = [] ∧ c.rest.2.set = c.set := by
  obtain ⟨hresult, hdrop, hset⟩ := c.take_ahead (c.set.capacity + 1)
  have hle := c.length_ahead_le
  rw [List.take_of_length_le (by omega)] at hresult
  rw [List.drop_of_length_le (by omega)] at hdrop
  exact ⟨hresult, hdrop, hset⟩

theorem ahead_cursor (s : BitSet) : s.cursor.ahead = s.toList :=
  List.filter_eq_self.2 fun _ _ => decide_eq_true (Nat.zero_le _)

theorem rest_cursor (s : BitSet) : s.cursor.rest.1 = s.toList := by
  rw [s.cursor.rest_ahead.1, ahead_cursor]

theorem countP_width_succ (p : Nat → Bool) (k : Nat) :
    (List.range (Word.width * (k + 1))).countP p = (List.range (Word.width * k)).countP p +
      (List.range Word.width).countP fun j => p (Word.width * k + j) := by
  rw [Nat.mul_succ, List.range_add, List.countP_append, List.countP_map]
  rfl

def isAhead (n : Nat) : Bool := decide (c.position ≤ n) && c.set.contains n

theorem length_ahead : c.ahead.length = (List.range c.set.capacity).countP c.isAhead := by
  rw [ahead, BitSet.toList, List.filter_filter, ← List.countP_eq_length_filter]
  rfl

theorem countP_isAhead_index :
    (List.range (Word.width * (c.index + 1))).countP c.isAhead =
      Word.onesFrom (c.set.wordAt c.index) (bitOffset c.position) := by
  have hpos : Word.width * c.index + bitOffset c.position = c.position :=
    width_mul_wordIndex_add c.position
  have hbefore : (List.range (Word.width * c.index)).countP c.isAhead = 0 := by
    refine List.countP_eq_zero.2 fun n hn => ?_
    have hlt := List.mem_range.1 hn
    have : ¬ c.position ≤ n := by omega
    simp [isAhead, this]
  rw [countP_width_succ, hbefore, Nat.zero_add]
  refine List.countP_congr fun j hj => ?_
  have hle : c.position ≤ Word.width * c.index + j ↔ bitOffset c.position ≤ j := by omega
  rw [isAhead, c.set.contains_width_mul_add (List.mem_range.1 hj), decide_eq_decide.2 hle]

theorem countP_isAhead_after {k : Nat} (h : c.index < k) :
    ((List.range Word.width).countP fun j => c.isAhead (Word.width * k + j)) =
      Word.ones (c.set.wordAt k) := by
  have hpos : Word.width * c.index + bitOffset c.position = c.position :=
    width_mul_wordIndex_add c.position
  have hoff := bitOffset_lt c.position
  have hmul : Word.width * (c.index + 1) ≤ Word.width * k := Nat.mul_le_mul_left _ h
  refine List.countP_congr fun j hj => ?_
  have hle : c.position ≤ Word.width * k + j := by
    rw [Nat.mul_succ] at hmul
    omega
  rw [isAhead, decide_eq_true hle, Bool.true_and, c.set.contains_width_mul_add
    (List.mem_range.1 hj)]

/-- The words behind the cursor's own, counted one by one. -/
theorem foldl_ones_eq_countP (count : Nat) :
    (List.range' (c.index + 1) count).foldl (fun total i => total + Word.ones (c.set.wordAt i))
        (Word.onesFrom (c.set.wordAt c.index) (bitOffset c.position)) =
      (List.range (Word.width * (c.index + 1 + count))).countP c.isAhead := by
  induction count with
  | zero => exact c.countP_isAhead_index.symm
  | succ count ih =>
      rw [List.range'_concat, List.foldl_append, ih, List.foldl_cons, List.foldl_nil, Nat.one_mul,
        ← c.countP_isAhead_after (show c.index < c.index + 1 + count by omega), ← Nat.add_assoc,
        countP_width_succ]

theorem remaining_eq_length : c.remaining = c.ahead.length := by
  rw [remaining]
  by_cases hc : c.position < c.set.capacity
  · have hi : c.index < c.set.wordCount := wordIndex_lt_iff.2 hc
    have hwords : c.index + 1 + (c.set.wordCount - (c.index + 1)) = c.set.wordCount := by omega
    have hdrop : c.set.words.toList.drop (c.index + 1) =
        (List.range' (c.index + 1) (c.set.wordCount - (c.index + 1))).map c.set.wordAt := by
      rw [c.set.toList_words, ← List.map_drop, List.range_eq_range', List.drop_range', Nat.mul_one,
        Nat.zero_add]
    rw [if_pos hc, hdrop, List.foldl_map, foldl_ones_eq_countP, hwords, length_ahead]
    rfl
  · have hnone : c.ahead = [] := c.ahead_eq_nil fun m hm hmem =>
      absurd (BitSet.lt_capacity_of_mem hmem) (by omega)
    rw [if_neg hc, hnone, List.length_nil]

end Cursor

end PackedSet
