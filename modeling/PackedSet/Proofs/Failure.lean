import PackedSet.Proofs.Session
import Mathlib.Data.List.TakeWhile

/-!
# Failures

An edit fails if it is misused, if a fixed set is too small for its result, or if there is nothing
to allocate. A failed edit leaves the set as it was; only a list of positions may fail halfway, and
then exactly those before the first one outside the set have gone in. The numbers in the answer are
those of the set that is left.
-/

namespace PackedSet

def Answer.failed : Answer → Bool
  | .misuse _ => true
  | .tooSmall _ => true
  | .position none => true
  | _ => false

theorem Answer.ne_ok_of_misuse {r : Except Fault Unit} (h : (ofFault r).failed = true) :
    r ≠ .ok () := by
  rintro rfl
  cases h

theorem Answer.ne_ok_of_tooSmall {r : Except SizeMismatch Unit}
    (h : (ofMismatch r).failed = true) : r ≠ .ok () := by
  rintro rfl
  cases h

theorem Answer.ne_ok_of_merge {r : Except SizeMismatch Bool} (h : (ofMerge r).failed = true)
    (changed : Bool) : r ≠ .ok changed := by
  rintro rfl
  cases h

namespace Edit

def access? : Edit BitSet → Option Access
  | .insert _ => some .insert
  | .erase _ => some .erase
  | .fill _ => some .fill
  | .extend _ => some .insert
  | _ => none

/-- The number for which an edit is refused by a set of `capacity` positions: its argument, or the
first position of its list that is outside the set. -/
def offender? (capacity : Nat) : Edit BitSet → Option Nat
  | .insert n => some n
  | .erase n => some n
  | .fill n => some n
  | .extend positions => positions.find? fun n => decide (capacity ≤ n)
  | _ => none

/-- The numbers in the answer to a failed edit are those of the set `s`, and they show why it had
to fail. -/
def Reports (e : Edit BitSet) (s : BitSet) : Answer → Prop
  | .misuse (.outOfRange access index capacity) =>
      e.access? = some access ∧ e.offender? s.capacity = some index ∧ capacity = s.capacity ∧
        s.capacity ≤ index ∧ (access = .fill → s.capacity < index)
  | .misuse (.sizesDiffer dest src) =>
      dest = s.wordCount ∧ dest ≠ src ∧ ∃ t, e = .copyFrom t ∧ src = t.wordCount
  | .tooSmall m => m.available = s.wordCount ∧ m.available < m.required
  | _ => True

end Edit

namespace BitSet

variable {s : BitSet}

theorem extend_of_fixed (hg : s.growable = false) (positions : List Nat) :
    (s.extend positions).set =
        (positions.takeWhile fun n => decide (n < s.capacity)).foldl
          (fun t n => (t.insert n).set) s ∧
      (s.extend positions).result =
        match positions.find? fun n => decide (s.capacity ≤ n) with
        | none => .ok ()
        | some n => .error (.outOfRange .insert n s.capacity) := by
  induction positions generalizing s with
  | nil => exact ⟨rfl, rfl⟩
  | cons n rest ih =>
      by_cases hn : n < s.capacity
      · have hfit : s.Fits (wordIndex n + 1) := s.fits_wordIndex_iff.2 (Or.inl hn)
        have hcap : (s.insert n).set.capacity = s.capacity :=
          congrArg (Word.width * ·) (wordCount_insert_of_fixed hg n)
        have hrest := ih ((s.growable_insert n).trans hg)
        rw [hcap] at hrest
        have hkeep : decide (n < s.capacity) = true := decide_eq_true hn
        have hpass : decide (s.capacity ≤ n) = false := decide_eq_false (Nat.not_le.2 hn)
        rw [extend_cons, Outcome.andThen_of_ok (s.result_insert hfit),
          List.takeWhile_cons, if_pos hkeep, List.find?_cons, hpass]
        exact hrest
      · have hstop : ¬ decide (n < s.capacity) = true := fun h => hn (of_decide_eq_true h)
        have hfound : decide (s.capacity ≤ n) = true := decide_eq_true (Nat.not_lt.1 hn)
        rw [extend_cons, s.insert_of_fixed (Nat.not_lt.1 hn) hg,
          List.takeWhile_cons, if_neg hstop, List.find?_cons, hfound]
        exact ⟨rfl, rfl⟩

theorem extend_of_growable (hg : s.growable = true) (positions : List Nat) :
    (s.extend positions).result = .ok () :=
  (Outcome.forEach_of_ok (P := fun t => t.growable = true)
    (fun t _ ht => t.result_insert (Or.inr ht)) (fun t n ht => (t.growable_insert n).trans ht)
    hg positions).1

theorem contains_foldl_insert {front : List Nat} (hfront : ∀ n ∈ front, n < s.capacity) (m : Nat) :
    (front.foldl (fun t n => (t.insert n).set) s).contains m = true ↔
      s.contains m = true ∨ m ∈ front := by
  induction front generalizing s with
  | nil => simp
  | cons n rest ih =>
      have hn := hfront n List.mem_cons_self
      have hcap : (s.insert n).set.capacity = s.capacity := by
        rw [s.insert_of_lt hn]
        exact congrArg (Word.width * ·) (s.wordCount_mark n)
      have hok : (s.insert n).result = .ok () :=
        s.result_insert (s.fits_wordIndex_iff.2 (Or.inl hn))
      rw [List.foldl_cons, ih fun k hk => hcap ▸ hfront k (List.mem_cons_of_mem n hk),
        s.contains_insert hok, Bool.or_eq_true, decide_eq_true_eq, List.mem_cons, eq_comm]
      tauto

theorem insert_of_failed {n : Nat} (h : (Edit.apply s (.insert n)).result.failed = true) :
    (s.insert n).set = s ∧ Edit.Reports (.insert n) s (.ofFault (s.insert n).result) := by
  have hfit : ¬ s.Fits (wordIndex n + 1) := fun hf =>
    Answer.ne_ok_of_misuse h (s.result_insert hf)
  have hn := (s.not_fits_wordIndex_iff.1 hfit).2
  rw [s.insert_of_not_fits hfit]
  exact ⟨rfl, rfl, rfl, rfl, hn, fun ha => by cases ha⟩

theorem erase_of_failed {n : Nat} (h : (Edit.apply s (.erase n)).result.failed = true) :
    (s.erase n).set = s ∧ Edit.Reports (.erase n) s (.ofFault (s.erase n).result) := by
  have hn : s.capacity ≤ n := Nat.not_lt.1 fun hlt =>
    Answer.ne_ok_of_misuse h (congrArg Outcome.result (s.erase_of_lt hlt))
  rw [s.erase_of_capacity_le hn]
  exact ⟨rfl, rfl, rfl, rfl, hn, fun ha => by cases ha⟩

theorem fill_of_failed {n : Nat} (h : (Edit.apply s (.fill n)).result.failed = true) :
    (s.fill n).set = s ∧ Edit.Reports (.fill n) s (.ofFault (s.fill n).result) := by
  have hn : s.capacity < n := Nat.not_le.1 fun hle =>
    Answer.ne_ok_of_misuse h (congrArg Outcome.result (s.fill_of_le hle))
  rw [s.fill_of_capacity_lt hn]
  exact ⟨rfl, rfl, rfl, rfl, Nat.le_of_lt hn, fun _ => hn⟩

theorem allocate_of_failed (h : (Edit.apply s .allocate).result.failed = true) :
    s.allocate.set = s := by
  by_cases hr : s.growable = true ∨ s.firstFree? ≠ none
  · change (Answer.position s.allocate.result).failed = true at h
    rw [s.allocate_eq_insert hr] at h
    cases h
  · rw [not_or, Bool.not_eq_true, not_not] at hr
    rw [s.allocate_of_full hr.1 hr.2]

theorem copyFrom_of_failed {src : BitSet}
    (h : (Edit.apply s (.copyFrom src)).result.failed = true) :
    (s.copyFrom src).set = s ∧
      Edit.Reports (.copyFrom src) s (.ofFault (s.copyFrom src).result) := by
  have hw : s.wordCount ≠ src.wordCount := fun heq =>
    Answer.ne_ok_of_misuse h (congrArg Outcome.result (if_pos heq))
  rw [copyFrom, if_neg hw]
  exact ⟨rfl, rfl, hw, src, rfl, rfl⟩

theorem inter_of_failed {a b : BitSet} (h : (Edit.apply s (.inter a b)).result.failed = true) :
    (s.inter a b).set = s ∧ Edit.Reports (.inter a b) s (.ofMismatch (s.inter a b).result) := by
  have hfit : ¬ s.Fits (commonExtent a b) := fun hf =>
    Answer.ne_ok_of_tooSmall h (s.result_inter hf)
  rw [s.inter_of_not_fits hfit]
  exact ⟨rfl, rfl, (not_fits_iff.1 hfit).1⟩

theorem union_of_failed {a b : BitSet} (h : (Edit.apply s (.union a b)).result.failed = true) :
    (s.union a b).set = s ∧ Edit.Reports (.union a b) s (.ofMismatch (s.union a b).result) := by
  have hfit : ¬ s.Fits (max a.extent b.extent) := fun hf =>
    Answer.ne_ok_of_tooSmall h (s.result_union hf)
  rw [s.union_of_not_fits hfit]
  exact ⟨rfl, rfl, (not_fits_iff.1 hfit).1⟩

theorem merge_of_failed {src : BitSet} (h : (Edit.apply s (.merge src)).result.failed = true) :
    (s.merge src).set = s ∧ Edit.Reports (.merge src) s (.ofMerge (s.merge src).result) := by
  have hfit : ¬ s.Fits src.extent := fun hf => Answer.ne_ok_of_merge h _ (s.result_merge hf)
  rw [s.merge_of_not_fits hfit]
  exact ⟨rfl, rfl, (not_fits_iff.1 hfit).1⟩

theorem apply_of_failed {e : Edit BitSet} (he : ∀ positions, e ≠ .extend positions)
    (h : (e.apply s).result.failed = true) :
    (e.apply s).set = s ∧ e.Reports s (e.apply s).result := by
  cases e with
  | insert n => exact insert_of_failed h
  | erase n => exact erase_of_failed h
  | clear => cases h
  | fill n => exact fill_of_failed h
  | allocate => exact ⟨allocate_of_failed h, trivial⟩
  | allocateMany count => cases h
  | extend positions => exact absurd rfl (he positions)
  | copyFrom src => exact copyFrom_of_failed h
  | inter a b => exact inter_of_failed h
  | union a b => exact union_of_failed h
  | merge src => exact merge_of_failed h
  | meet src => cases h

theorem extend_of_failed {positions : List Nat}
    (h : (Edit.apply s (.extend positions)).result.failed = true) :
    s.growable = false ∧ ∃ n, positions.find? (fun n => decide (s.capacity ≤ n)) = some n ∧
      (s.extend positions).result = .error (.outOfRange .insert n s.capacity) := by
  change (Answer.ofFault (s.extend positions).result).failed = true at h
  cases hg : s.growable with
  | true =>
      rw [extend_of_growable hg] at h
      cases h
  | false =>
      have hresult := (extend_of_fixed hg positions).2
      cases hf : positions.find? fun n => decide (s.capacity ≤ n) with
      | none =>
          rw [hresult, hf] at h
          cases h
      | some n => exact ⟨rfl, n, rfl, by rw [hresult, hf]⟩

/-- A failed edit leaves the words, their count and the growability as they were. A failed list of
positions leaves what the positions before the first one outside the set make of it, and names that
one. In both cases the answer tells the numbers of the set that is left. -/
theorem failure_leaves_set {e : Edit BitSet} (h : (e.apply s).result.failed = true) :
    let left := (e.apply s).set
    ((∀ positions, e ≠ .extend positions) → left = s) ∧
      (∀ positions, e = .extend positions →
        let front := positions.takeWhile fun n => decide (n < s.capacity)
        left = front.foldl (fun t n => (t.insert n).set) s ∧
          (∀ n, left.contains n = true ↔ s.contains n = true ∨ n ∈ front) ∧
          left.growable = s.growable ∧ left.capacity = s.capacity ∧
          ∃ n, positions.find? (fun n => decide (s.capacity ≤ n)) = some n ∧
            (e.apply s).result = .misuse (.outOfRange .insert n s.capacity)) ∧
      e.Reports left (e.apply s).result := by
  intro left
  by_cases he : ∀ positions, e ≠ .extend positions
  · obtain ⟨hset, hreports⟩ := apply_of_failed he h
    exact ⟨fun _ => hset, fun positions hp => absurd hp (he positions), hset.symm ▸ hreports⟩
  · obtain ⟨positions, hp⟩ := not_forall.1 he
    obtain rfl := not_not.1 hp
    obtain ⟨hg, n, hfound, hresult⟩ := extend_of_failed h
    have hleft : left = _ := (extend_of_fixed hg positions).1
    have hcap : left.capacity = s.capacity :=
      congrArg (Word.width * ·) (wordCount_extend_of_fixed hg positions)
    have hanswer : (Edit.apply s (.extend positions)).result =
        .misuse (.outOfRange .insert n s.capacity) := congrArg Answer.ofFault hresult
    refine ⟨fun hn => absurd rfl (hn positions), ?_, ?_⟩
    · rintro _ ⟨rfl⟩ front
      have hinside : ∀ k ∈ front, k < s.capacity := by
        intro k hk
        simpa using List.mem_takeWhile_imp hk
      refine ⟨hleft, fun m => ?_, s.growable_extend positions, hcap, n, hfound, hanswer⟩
      rw [hleft]
      exact contains_foldl_insert hinside m
    · have hn : decide (s.capacity ≤ n) = true := by
        simpa using List.find?_some hfound
      rw [hanswer]
      refine ⟨rfl, ?_, hcap.symm, hcap ▸ of_decide_eq_true hn, fun ha => by cases ha⟩
      rw [hcap]
      exact hfound

theorem failure_leaves_set_list :
    let s := fixed 32
    let e : Edit BitSet := .extend [3, 40, 5]
    (e.apply s).result.failed = true ∧ (e.apply s).set = (s.insert 3).set ∧
      e.Reports (e.apply s).set (e.apply s).result := by
  have hfail : (Edit.apply (fixed 32) (.extend [3, 40, 5])).result.failed = true := by
    decide +kernel
  have h := failure_leaves_set hfail
  exact ⟨hfail, (h.2.1 _ rfl).1, h.2.2⟩

end BitSet

end PackedSet
