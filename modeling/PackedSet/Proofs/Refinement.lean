import PackedSet.Proofs.PlainSet

/-!
# Packed sets refine plain sets

`BitSet.plain` forgets how a set is packed. Each operation commutes with it: the plain operation
gives the same result and leaves the plain set of what the packed one leaves. A run of edits
therefore answers as the plain run does, and stands for the same finite set at each point.
-/

namespace PackedSet

/-- Words past `k` are zero exactly if no position past `k` words is set in them. -/
theorem forall_word_eq_zero_iff {f : Nat → Word} {k : Nat} :
    (∀ i, k ≤ i → f i = 0) ↔
      ∀ n, Word.test (f (wordIndex n)) (bitOffset n) = true → n < Word.width * k := by
  constructor
  · intro h n hn
    by_contra hk
    have hi : k ≤ wordIndex n := Nat.not_lt.1 fun hlt => hk (wordIndex_lt_iff.1 hlt)
    rw [h _ hi, Word.test_zero] at hn
    cases hn
  · intro h i hi
    refine Word.eq_zero_iff.2 fun j => Bool.eq_false_iff.2 fun hj => ?_
    have hw := Word.lt_width_of_test hj
    have hlt := h (Word.width * i + j)
      (by rwa [wordIndex_width_mul_add hw, bitOffset_width_mul_add hw])
    rw [← wordIndex_lt_iff, wordIndex_width_mul_add hw] at hlt
    omega

namespace BitSet

variable (s : BitSet)

/-- The plain set that a packed set stands for. -/
def plain : PlainSet where
  members := (Finset.range s.capacity).filter fun n => s.contains n = true
  wordCount := s.wordCount
  growable := s.growable
  lt_room _ hn := Finset.mem_range.1 (Finset.mem_filter.1 hn).1

@[simp] theorem wordCount_plain : s.plain.wordCount = s.wordCount := rfl

@[simp] theorem growable_plain : s.plain.growable = s.growable := rfl

@[simp] theorem capacity_plain : s.plain.capacity = s.capacity := rfl

@[simp] theorem mem_plain {n : Nat} : n ∈ s.plain.members ↔ s.contains n = true := by
  rw [plain, Finset.mem_filter, Finset.mem_range]
  exact ⟨fun h => h.2, fun h => ⟨lt_capacity_of_mem h, h⟩⟩

theorem plain_eq {p : PlainSet} (hm : ∀ n, s.contains n = true ↔ n ∈ p.members)
    (hw : s.wordCount = p.wordCount) (hg : s.growable = p.growable) : s.plain = p :=
  PlainSet.ext (Finset.ext fun n => s.mem_plain.trans (hm n)) hw hg

theorem extent_eq : s.extent = wordsOf s.plain.members := by
  refine eq_of_forall_ge_iff fun k => ?_
  rw [extent_le_iff, forall_word_eq_zero_iff, wordsOf_le_iff]
  exact forall_congr' fun n => imp_congr_left s.mem_plain.symm

theorem commonExtent_eq (a b : BitSet) :
    commonExtent a b = wordsOf (a.plain.members ∩ b.plain.members) := by
  refine eq_of_forall_ge_iff fun k => ?_
  rw [commonExtent_le_iff, forall_word_eq_zero_iff, wordsOf_le_iff]
  refine forall_congr' fun n => imp_congr_left ?_
  rw [Word.test_and, Bool.and_eq_true, Finset.mem_inter, mem_plain, mem_plain]
  rfl

theorem max_extent_eq (a b : BitSet) :
    max a.extent b.extent = wordsOf (a.plain.members ∪ b.plain.members) := by
  rw [wordsOf_union, extent_eq, extent_eq]

end BitSet

def Outcome.plain {α : Type} (o : Outcome α) : α × PlainSet := (o.result, o.set.plain)

namespace BitSet

variable (s : BitSet)

theorem not_fits_wordIndex_iff {n : Nat} :
    ¬ s.Fits (wordIndex n + 1) ↔ s.growable = false ∧ s.capacity ≤ n := by
  rw [fits_wordIndex_iff, not_or, Nat.not_lt, Bool.not_eq_true, and_comm]

theorem plain_set_insert {n : Nat} (h : s.Fits (wordIndex n + 1)) :
    (s.insert n).set.plain = s.plain.hold (s.plain.members ∪ {n}) := by
  apply plain_eq
  · intro m
    rw [s.contains_insert (s.result_insert h), PlainSet.members_hold, Finset.mem_union, mem_plain,
      Finset.mem_singleton, Bool.or_eq_true, decide_eq_true_eq, eq_comm, or_comm]
  · rw [s.wordCount_insert h, PlainSet.wordCount_hold, s.plain.room_wordsOf_union,
      wordsOf_singleton, wordCount_plain]
  · exact s.growable_insert n

theorem plain_insert (n : Nat) : (s.insert n).plain = s.plain.insert n := by
  by_cases h : s.Fits (wordIndex n + 1)
  · have hn : ¬ (s.plain.growable = false ∧ s.plain.capacity ≤ n) := fun hr =>
      s.not_fits_wordIndex_iff.2 hr h
    rw [PlainSet.insert, if_neg hn, Outcome.plain, s.result_insert h, s.plain_set_insert h]
  · have hr : s.plain.growable = false ∧ s.plain.capacity ≤ n := s.not_fits_wordIndex_iff.1 h
    rw [s.insert_of_not_fits h, PlainSet.insert, if_pos hr]
    rfl

theorem plain_erase (n : Nat) : (s.erase n).plain = s.plain.erase n := by
  by_cases h : s.plain.capacity ≤ n
  · rw [s.erase_of_capacity_le h, PlainSet.erase, if_pos h]
    rfl
  · have hset : (s.unmark n).plain = s.plain.keep (s.plain.members \ {n})
        fun _ hm => s.plain.lt_capacity (Finset.mem_sdiff.1 hm).1 := by
      refine plain_eq _ (fun m => ?_) (s.wordCount_unmark n) rfl
      rw [s.contains_unmark (Nat.not_le.1 h), PlainSet.keep, Finset.mem_sdiff, mem_plain,
        Finset.mem_singleton, Bool.and_eq_true, Bool.not_eq_true', decide_eq_false_iff_not,
        and_comm, @eq_comm _ n m]
    rw [s.erase_of_lt (Nat.not_le.1 h), PlainSet.erase, if_neg h, ← hset]
    rfl

theorem plain_clear : s.clear.plain = s.plain.clear := by
  refine plain_eq _ (fun m => ?_) s.wordCount_clear rfl
  rw [s.contains_clear]
  exact iff_of_false Bool.false_ne_true (Finset.notMem_empty m)

theorem plain_fill (k : Nat) : (s.fill k).plain = s.plain.fill k := by
  by_cases h : s.plain.capacity < k
  · rw [s.fill_of_capacity_lt h, PlainSet.fill, dif_pos h]
    rfl
  · have hset : (s.fill k).set.plain =
        s.plain.keep (s.plain.members ∪ Finset.range k)
          fun _ => s.plain.lt_capacity_of_mem_union_range h := by
      refine plain_eq _ (fun m => ?_) (s.wordCount_fill k) ?_
      · rw [s.contains_fill (Nat.not_lt.1 h), PlainSet.keep, Finset.mem_union, mem_plain,
          Finset.mem_range, Bool.or_eq_true, decide_eq_true_eq, or_comm]
      · rw [s.fill_of_le (Nat.not_lt.1 h)]
        rfl
    have hok : (s.fill k).result = .ok () := by
      rw [s.fill_of_le (Nat.not_lt.1 h)]
      rfl
    rw [PlainSet.fill, dif_neg h, Outcome.plain, hok, hset]

/-- Positions go in one by one; the plain run makes the same stop. -/
theorem plain_extend (positions : List Nat) :
    (s.extend positions).plain = s.plain.extend positions := by
  induction positions generalizing s with
  | nil => rfl
  | cons n rest ih =>
      rw [extend_cons, PlainSet.extend, ← plain_insert, Outcome.plain]
      by_cases h : s.Fits (wordIndex n + 1)
      · rw [Outcome.andThen_of_ok (s.result_insert h), Outcome.plain, s.result_insert h]
        exact ih (s.insert n).set
      · rw [s.insert_of_not_fits h]
        rfl

theorem wordIndex_capacity : wordIndex s.capacity = s.wordCount :=
  Nat.mul_div_cancel_left _ (by decide)

theorem firstFree?_eq_leastAbsent {n : Nat} (h : s.firstFree? = some n) :
    n = s.plain.leastAbsent := by
  obtain ⟨-, hfree, hmin⟩ := s.firstFree?_eq_some_iff.1 h
  refine ((Nat.find_eq_iff s.plain.exists_absent).2 ⟨?_, fun m hm => ?_⟩).symm
  · exact fun hn => hfree (s.mem_plain.1 hn)
  · exact not_not.2 (s.mem_plain.2 (hmin m hm))

theorem members_plain_eq_range_iff :
    s.plain.members = Finset.range s.capacity ↔ s.firstFree? = none := by
  rw [firstFree?_eq_none_iff]
  constructor
  · intro h n hn
    exact s.mem_plain.1 (h ▸ Finset.mem_range.2 hn)
  · intro h
    refine Finset.ext fun n => ?_
    rw [mem_plain, Finset.mem_range]
    exact ⟨lt_capacity_of_mem, h n⟩

theorem leastAbsent_of_full (h : s.firstFree? = none) : s.plain.leastAbsent = s.capacity := by
  have hrange := s.members_plain_eq_range_iff.2 h
  refine (Nat.find_eq_iff _).2 ⟨?_, fun m hm => not_not.2 ?_⟩
  · rw [hrange]
    exact Finset.notMem_range_self
  · rw [hrange]
    exact Finset.mem_range.2 hm

/-- Allocation inserts the least absent position, which is the capacity of a full set. -/
theorem allocate_eq_insert (h : s.growable = true ∨ s.firstFree? ≠ none) :
    s.allocate = ⟨some s.plain.leastAbsent, (s.insert s.plain.leastAbsent).set,
      (s.insert s.plain.leastAbsent).events⟩ := by
  unfold allocate
  cases hf : s.firstFree? with
  | some n =>
      obtain rfl := s.firstFree?_eq_leastAbsent hf
      rw [s.insert_of_lt (s.firstFree?_eq_some_iff.1 hf).1]
      rfl
  | none =>
      have hg : s.growable = true := h.resolve_right (not_not.2 hf)
      rw [s.leastAbsent_of_full hf, s.insert_of_growable (Nat.le_refl _) hg, wordIndex_capacity,
        if_pos hg]

theorem allocate_of_full (hg : s.growable = false) (h : s.firstFree? = none) :
    s.allocate = ⟨none, s, []⟩ := by
  rw [allocate, h]
  exact if_neg (hg ▸ Bool.false_ne_true)

theorem fits_leastAbsent (h : s.growable = true ∨ s.firstFree? ≠ none) :
    s.Fits (wordIndex s.plain.leastAbsent + 1) := by
  rw [fits_wordIndex_iff]
  rcases h with hg | hf
  · exact Or.inr hg
  · obtain ⟨n, hn⟩ := Option.ne_none_iff_exists'.1 hf
    rw [← s.firstFree?_eq_leastAbsent hn]
    exact Or.inl (s.firstFree?_eq_some_iff.1 hn).1

theorem plain_allocate : s.allocate.plain = s.plain.allocate := by
  by_cases h : s.growable = false ∧ s.firstFree? = none
  · rw [s.allocate_of_full h.1 h.2, PlainSet.allocate,
      if_pos ⟨h.1, s.members_plain_eq_range_iff.2 h.2⟩]
    rfl
  · have hr : s.growable = true ∨ s.firstFree? ≠ none := by
      rwa [not_and_or, Bool.not_eq_false] at h
    have hn : ¬ (s.plain.growable = false ∧
        s.plain.members = Finset.range s.plain.capacity) := by
      rwa [capacity_plain, members_plain_eq_range_iff]
    rw [PlainSet.allocate, if_neg hn, Outcome.plain, s.allocate_eq_insert hr,
      s.plain_set_insert (s.fits_leastAbsent hr)]

theorem plain_allocateMany (count : Nat) :
    (s.allocateMany count).plain = s.plain.allocateMany count := by
  induction count generalizing s with
  | zero => rfl
  | succ count ih =>
      rw [PlainSet.allocateMany, ← plain_allocate]
      have hlater := ih s.allocate.set
      rw [Outcome.plain] at hlater ⊢
      rw [allocateMany, Outcome.plain, ← hlater]

theorem plain_copyFrom (src : BitSet) : (s.copyFrom src).plain = s.plain.copyFrom src.plain := by
  by_cases h : s.plain.wordCount = src.plain.wordCount
  · have hset : ({ s with words := src.words } : BitSet).plain =
        s.plain.keep src.plain.members fun _ hn =>
          Nat.lt_of_lt_of_eq (src.plain.lt_capacity hn) (congrArg (Word.width * ·) h.symm) :=
      plain_eq _ (fun _ => src.mem_plain.symm) h.symm rfl
    rw [copyFrom, if_pos (show s.wordCount = src.wordCount from h), PlainSet.copyFrom, dif_pos h,
      ← hset]
    rfl
  · rw [copyFrom, if_neg (show ¬ s.wordCount = src.wordCount from h), PlainSet.copyFrom, dif_neg h]
    rfl

/-- A result that is stored if there is room for it, and otherwise refused. -/
theorem plain_store {required : Nat} {members : Finset Nat}
    {next : BitSet → Outcome (Except SizeMismatch Unit)} (hrequired : required = wordsOf members)
    (hok : s.Fits required → ((s.ensure required).andThen next).result = .ok ())
    (hmem : s.Fits required →
      ∀ n, ((s.ensure required).andThen next).set.contains n = true ↔ n ∈ members)
    (hgrowable : ∀ t, (next t).set.growable = t.growable)
    (hcount : ∀ t, (next t).set.wordCount = t.wordCount) :
    ((s.ensure required).andThen next).plain = s.plain.store members := by
  subst hrequired
  rw [PlainSet.store]
  by_cases h : s.Fits (wordsOf members)
  · have hset : ((s.ensure (wordsOf members)).andThen next).set.plain = s.plain.hold members :=
      plain_eq _ (hmem h) (s.wordCount_ensure_andThen hcount h)
        (s.growable_ensure_andThen hgrowable)
    have hn : ¬ (s.plain.growable = false ∧ s.plain.wordCount < wordsOf members) := fun hr =>
      not_fits_iff.2 hr.symm h
    rw [if_neg hn, Outcome.plain, hok h, hset]
  · have hr : s.plain.growable = false ∧ s.plain.wordCount < wordsOf members :=
      (not_fits_iff.1 h).symm
    rw [s.ensure_andThen_of_not_fits next h, if_pos hr]
    rfl

theorem plain_inter (a b : BitSet) : (s.inter a b).plain = s.plain.inter a.plain b.plain := by
  refine s.plain_store (commonExtent_eq a b) (fun h => s.result_inter h) (fun h n => ?_)
    (fun _ => rfl) (fun t => t.wordCount_overwrite _)
  rw [Finset.mem_inter, mem_plain, mem_plain, ← Bool.and_eq_true]
  exact Bool.eq_iff_iff.1 (s.contains_inter (s.result_inter h) n)

theorem plain_union (a b : BitSet) : (s.union a b).plain = s.plain.union a.plain b.plain := by
  refine s.plain_store (max_extent_eq a b) (fun h => s.result_union h) (fun h n => ?_)
    (fun _ => rfl) (fun t => t.wordCount_overwrite _)
  rw [Finset.mem_union, mem_plain, mem_plain, ← Bool.or_eq_true]
  exact Bool.eq_iff_iff.1 (s.contains_union (s.result_union h) n)

/-- Words are replaced by themselves exactly if no member changes. -/
theorem words_overwrite_eq_iff (f : Nat → Word) :
    (s.overwrite f).words = s.words ↔ ∀ n, (s.overwrite f).contains n = s.contains n := by
  constructor
  · intro h n
    have : s.overwrite f = s := congrArg (BitSet.mk · s.growable) h
    rw [this]
  · intro h
    exact congrArg words (ext_words rfl (s.wordCount_overwrite f) h)

theorem bne_eq_decide_not {α : Type} [BEq α] [LawfulBEq α] {a b : α} {p : Prop} [Decidable p]
    (h : a = b ↔ p) : (a != b) = decide (¬ p) := by
  rw [Bool.eq_iff_iff, bne_iff_ne, decide_eq_true_eq]
  exact not_congr h

theorem result_merge {src : BitSet} (h : s.Fits src.extent) :
    (s.merge src).result = .ok (decide (¬ src.plain.members ⊆ s.plain.members)) := by
  have hok : ∃ changed, (s.merge src).result = .ok changed := by
    rw [merge, s.ensure_andThen_of_fits _ h]
    exact ⟨_, rfl⟩
  obtain ⟨changed, hc⟩ := hok
  have hcontains := s.contains_merge hc
  rw [merge, s.ensure_andThen_of_fits _ h] at hcontains ⊢
  refine congrArg Except.ok (bne_eq_decide_not ?_)
  rw [words_overwrite_eq_iff, Finset.subset_iff]
  refine forall_congr' fun n => ?_
  rw [mem_plain, mem_plain, contains_ensure]
  rw [show ((s.ensure src.extent).set.overwrite _).contains n = _ from hcontains n]
  cases s.contains n <;> cases src.contains n <;> simp

theorem plain_merge (src : BitSet) : (s.merge src).plain = s.plain.merge src.plain := by
  rw [PlainSet.merge, PlainSet.store]
  by_cases h : s.Fits src.extent
  · have hset : (s.merge src).set.plain = s.plain.hold (s.plain.members ∪ src.plain.members) := by
      refine plain_eq _ (fun n => ?_) ?_ (s.growable_merge src)
      · rw [s.contains_merge (s.result_merge h), Bool.or_eq_true, PlainSet.members_hold,
          Finset.mem_union, mem_plain, mem_plain]
      · rw [s.wordCount_merge h, PlainSet.wordCount_hold, s.plain.room_wordsOf_union, ← extent_eq]
        rfl
    have hn : ¬ (s.plain.growable = false ∧
        s.plain.wordCount < wordsOf (s.plain.members ∪ src.plain.members)) := by
      rw [s.plain.lt_wordsOf_union_iff, ← extent_eq]
      exact fun hr => not_fits_iff.2 hr.symm h
    rw [if_neg hn, Outcome.plain, s.result_merge h, hset]
    rfl
  · obtain ⟨hlt, hg⟩ := not_fits_iff.1 h
    have hlt' : s.plain.wordCount < wordsOf src.plain.members := by rwa [← extent_eq]
    have hr : s.plain.growable = false ∧
        s.plain.wordCount < wordsOf (s.plain.members ∪ src.plain.members) :=
      ⟨hg, (s.plain.lt_wordsOf_union_iff _).2 hlt'⟩
    rw [s.merge_of_not_fits h, if_pos hr, s.plain.wordsOf_union_of_lt hlt', ← extent_eq]
    rfl

theorem plain_meet (src : BitSet) : (s.meet src).plain = s.plain.meet src.plain := by
  have hflag : (s.meet src).result = decide (¬ s.plain.members ⊆ src.plain.members) := by
    refine bne_eq_decide_not ?_
    rw [words_overwrite_eq_iff, Finset.subset_iff]
    refine forall_congr' fun n => ?_
    rw [mem_plain, mem_plain, show (s.overwrite _).contains n = _ from s.contains_meet src n]
    cases s.contains n <;> cases src.contains n <;> simp
  have hset : (s.meet src).set.plain = (s.plain.meet src.plain).2 := by
    refine plain_eq _ (fun n => ?_) (s.wordCount_meet src) rfl
    rw [s.contains_meet, Bool.and_eq_true, PlainSet.meet, PlainSet.keep, Finset.mem_inter,
      mem_plain, mem_plain]
  rw [Outcome.plain, hflag, hset]
  rfl

end BitSet

def Edit.map {ι κ : Type} (f : ι → κ) : Edit ι → Edit κ
  | .insert n => .insert n
  | .erase n => .erase n
  | .clear => .clear
  | .fill n => .fill n
  | .allocate => .allocate
  | .allocateMany count => .allocateMany count
  | .extend positions => .extend positions
  | .copyFrom src => .copyFrom (f src)
  | .inter a b => .inter (f a) (f b)
  | .union a b => .union (f a) (f b)
  | .merge src => .merge (f src)
  | .meet src => .meet (f src)

theorem Outcome.plain_map {α β : Type} (f : α → β) (o : Outcome α) :
    (o.map f).plain = o.plain.map f id := rfl

namespace BitSet

variable (s : BitSet)

/-- One edit: same answer, and the plain set of the set that is left. -/
theorem plain_apply (e : Edit BitSet) : (e.apply s).plain = s.plain.apply (e.map plain) := by
  cases e with
  | insert n => rw [Edit.apply, Outcome.plain_map, plain_insert]; rfl
  | erase n => rw [Edit.apply, Outcome.plain_map, plain_erase]; rfl
  | clear => exact Prod.ext rfl s.plain_clear
  | fill n => rw [Edit.apply, Outcome.plain_map, plain_fill]; rfl
  | allocate => rw [Edit.apply, Outcome.plain_map, plain_allocate]; rfl
  | allocateMany count => rw [Edit.apply, Outcome.plain_map, plain_allocateMany]; rfl
  | extend positions => rw [Edit.apply, Outcome.plain_map, plain_extend]; rfl
  | copyFrom src => rw [Edit.apply, Outcome.plain_map, plain_copyFrom]; rfl
  | inter a b => rw [Edit.apply, Outcome.plain_map, plain_inter]; rfl
  | union a b => rw [Edit.apply, Outcome.plain_map, plain_union]; rfl
  | merge src => rw [Edit.apply, Outcome.plain_map, plain_merge]; rfl
  | meet src => rw [Edit.apply, Outcome.plain_map, plain_meet]; rfl

theorem plain_applyAll (edits : List (Edit BitSet)) :
    (Edit.applyAll s edits).plain = s.plain.applyAll (edits.map (Edit.map plain)) := by
  induction edits generalizing s with
  | nil => rfl
  | cons e rest ih =>
      have hlater := ih (e.apply s).set
      rw [List.map_cons, PlainSet.applyAll, ← plain_apply]
      rw [Outcome.plain] at hlater ⊢
      rw [Edit.applyAll, Outcome.plain, ← hlater]

/-- Every run of edits, from every set and with arbitrary operands, is the run of the plain set:
it gives the same answers, leaves a set that stands for what the plain run leaves, and the set of
positions that it contains is the finite set of that, all of them under the capacity. -/
theorem applyAll_refines (edits : List (Edit BitSet)) :
    let packed := Edit.applyAll s edits
    let finite := s.plain.applyAll (edits.map (Edit.map plain))
    packed.result = finite.1 ∧ packed.set.plain = finite.2 ∧
      (∀ n, packed.set.contains n = true ↔ n ∈ finite.2.members) ∧
      ∀ n, packed.set.contains n = true → n < packed.set.capacity := by
  intro packed finite
  have hrun : packed.plain = finite := s.plain_applyAll edits
  have hset : packed.set.plain = finite.2 := congrArg Prod.snd hrun
  refine ⟨congrArg Prod.fst hrun, hset, fun n => ?_, fun n hn => lt_capacity_of_mem hn⟩
  rw [← hset, mem_plain]

end BitSet

end PackedSet
