import PackedSet.Proofs.Refinement

/-!
# Results that are stored

`inter` and `union` store a result over what a set held before. Room is asked for the greatest
member of the result alone: a fixed set refuses exactly if that member lies outside its capacity,
and a growable set grows for the same reason. Words of the operands in which nothing of the result
lies are of no account.
-/

namespace PackedSet

theorem lt_wordsOf_iff {members : Finset Nat} {k : Nat} :
    k < wordsOf members ↔ ∃ n ∈ members, Word.width * k ≤ n := by
  rw [← Nat.not_le, wordsOf_le_iff]
  push Not
  rfl

theorem wordsOf_of_isGreatest {members : Finset Nat} {top : Nat}
    (h : IsGreatest {n | n ∈ members} top) : wordsOf members = top / Word.width + 1 := by
  apply Nat.le_antisymm
  · refine wordsOf_le_iff.2 fun n hn => wordIndex_lt_iff.1 (Nat.lt_succ_of_le ?_)
    exact Nat.div_le_div_right (h.2 hn)
  · exact Finset.le_sup (f := fun n => wordIndex n + 1) h.1

theorem exists_isGreatest_of_lt_wordsOf {members : Finset Nat} {k : Nat}
    (h : k < wordsOf members) : ∃ top, IsGreatest {n | n ∈ members} top := by
  obtain ⟨n, hn, -⟩ := lt_wordsOf_iff.1 h
  have hsome : members.Nonempty := ⟨n, hn⟩
  exact ⟨members.max' hsome, members.isGreatest_max' hsome⟩

namespace BitSet

/-- The outcome `o` of a call on `s` is that the numbers with `wanted` are stored in it, over what
it held before, in as little room as they need. -/
structure StoresExactly (s : BitSet) (wanted : Nat → Bool)
    (o : Outcome (Except SizeMismatch Unit)) : Prop where
  refused_iff : (∃ m, o.result = .error m) ↔
    s.growable = false ∧ ∃ n, wanted n = true ∧ s.capacity ≤ n
  /-- A refusal tells the word of the greatest number. -/
  mismatch : ∀ m, o.result = .error m →
    ∃ top, IsGreatest {n | wanted n = true} top ∧ m = ⟨top / Word.width + 1, s.wordCount⟩
  contains : o.result = .ok () → ∀ n, o.set.contains n = wanted n
  grows_iff : s.wordCount < o.set.wordCount ↔
    s.growable = true ∧ ∃ n, wanted n = true ∧ s.capacity ≤ n
  wordCount_le : s.wordCount ≤ o.set.wordCount

section plain

variable {s : BitSet} {members : Finset Nat} {wanted : Nat → Bool}
  {o : Outcome (Except SizeMismatch Unit)} (hmembers : ∀ n, n ∈ members ↔ wanted n = true)
include hmembers

theorem lt_wordsOf_iff_wanted :
    s.wordCount < wordsOf members ↔ ∃ n, wanted n = true ∧ s.capacity ≤ n :=
  lt_wordsOf_iff.trans (exists_congr fun n => and_congr_left' (hmembers n))

theorem exists_isGreatest_wanted {k : Nat} (h : k < wordsOf members) :
    ∃ top, IsGreatest {n | wanted n = true} top ∧ wordsOf members = top / Word.width + 1 := by
  obtain ⟨top, htop⟩ := exists_isGreatest_of_lt_wordsOf h
  have hset : {n | n ∈ members} = {n | wanted n = true} := Set.ext hmembers
  exact ⟨top, hset ▸ htop, wordsOf_of_isGreatest htop⟩

theorem storesExactly_of_refused (hg : s.growable = false)
    (hlt : s.wordCount < wordsOf members)
    (h : o.plain = (.error ⟨wordsOf members, s.wordCount⟩, s.plain)) :
    s.StoresExactly wanted o := by
  have hresult : o.result = .error ⟨wordsOf members, s.wordCount⟩ := congrArg Prod.fst h
  have hcount : o.set.wordCount = s.wordCount := congrArg (fun p => p.2.wordCount) h
  constructor
  case refused_iff => exact iff_of_true ⟨_, hresult⟩ ⟨hg, (lt_wordsOf_iff_wanted hmembers).1 hlt⟩
  case mismatch =>
    intro m hm
    obtain ⟨top, htop, hwords⟩ := exists_isGreatest_wanted hmembers hlt
    obtain rfl := Except.error.inj (hm.symm.trans hresult)
    exact ⟨top, htop, by rw [hwords]⟩
  case contains =>
    intro hok
    rw [hresult] at hok
    cases hok
  case grows_iff =>
    refine iff_of_false hcount.not_gt fun hgrows => ?_
    rw [hg] at hgrows
    cases hgrows.1
  case wordCount_le => exact hcount.ge

theorem storesExactly_of_held (hfit : s.growable = false → wordsOf members ≤ s.wordCount)
    (h : o.plain = (.ok (), s.plain.hold members)) : s.StoresExactly wanted o := by
  have hresult : o.result = .ok () := congrArg Prod.fst h
  have hset : o.set.plain = s.plain.hold members := congrArg Prod.snd h
  have hcount : o.set.wordCount = room s.wordCount (wordsOf members) :=
    congrArg PlainSet.wordCount hset
  constructor
  case refused_iff =>
    refine iff_of_false ?_ fun hr =>
      Nat.not_lt.2 (hfit hr.1) ((lt_wordsOf_iff_wanted hmembers).2 hr.2)
    rintro ⟨m, hm⟩
    rw [hresult] at hm
    cases hm
  case mismatch =>
    intro m hm
    rw [hresult] at hm
    cases hm
  case contains =>
    intro _ n
    rw [Bool.eq_iff_iff, ← mem_plain, hset, PlainSet.members_hold, hmembers]
  case grows_iff =>
    rw [← lt_wordsOf_iff_wanted hmembers, hcount, lt_room_iff]
    refine ⟨fun hlt => ⟨?_, hlt⟩, And.right⟩
    exact Bool.of_not_eq_false fun hf => Nat.not_lt.2 (hfit hf) hlt
  case wordCount_le => exact hcount ▸ count_le_room _ _

/-- What stores a finite set of numbers as a plain set does stores them exactly. -/
theorem storesExactly_of_plain (h : o.plain = s.plain.store members) :
    s.StoresExactly wanted o := by
  rw [PlainSet.store] at h
  by_cases hr : s.plain.growable = false ∧ s.plain.wordCount < wordsOf members
  · rw [if_pos hr] at h
    exact storesExactly_of_refused hmembers hr.1 hr.2 h
  · rw [if_neg hr] at h
    exact storesExactly_of_held hmembers (fun hg => Nat.not_lt.1 fun hlt => hr ⟨hg, hlt⟩) h

end plain

/-- An intersection is refused exactly if the set is fixed and a common member lies outside its
capacity, and the refusal names the word of the greatest common member. Otherwise the set holds the
common members and nothing of its earlier content. It grows exactly if it may and a common member
lies outside its capacity. -/
theorem inter_storesExactly (d a b : BitSet) :
    d.StoresExactly (fun n => a.contains n && b.contains n) (d.inter a b) := by
  refine storesExactly_of_plain (fun n => ?_) (d.plain_inter a b)
  rw [Finset.mem_inter, mem_plain, mem_plain, Bool.and_eq_true]

/-- The high words of the operands do not meet, so one word is enough. -/
example : ((fixed 32).inter ⟨#[6, 0, 5], false⟩ ⟨#[3, 7, 2, 9], true⟩).set = ⟨#[2], false⟩ := by
  decide

/-- Zero words at the end of a set do not extend it. -/
@[simp] theorem extent_widen (s : BitSet) (count : Nat) : (s.widen count).extent = s.extent :=
  extent_congr (s.wordAt_widen count)

theorem union_widen (d a b : BitSet) (i j : Nat) :
    d.union (a.widen i) (b.widen j) = d.union a b := by
  simp only [union, extent_widen, wordAt_widen]

/-- A union is refused exactly if the set is fixed and a member of an operand lies outside its
capacity, and the refusal names the word of the greatest member of both. Otherwise the set holds the
members of both and nothing of its earlier content. It grows exactly if it may and one of the
members lies outside its capacity. Zero words at the end of the operands, however many, are of no
account. -/
theorem union_storesExactly (d a b : BitSet) :
    d.StoresExactly (fun n => a.contains n || b.contains n) (d.union a b) ∧
      ∀ i j, d.union (a.widen i) (b.widen j) = d.union a b := by
  refine ⟨storesExactly_of_plain (fun n => ?_) (d.plain_union a b), d.union_widen a b⟩
  rw [Finset.mem_union, mem_plain, mem_plain, Bool.or_eq_true]

end BitSet

end PackedSet
