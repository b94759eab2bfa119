import PackedSet.Proofs.EventLog
import Mathlib.Data.List.Perm.Basic

/-!
# Passes over a list of sources

A pass makes one edit in place for each source of a list and goes on after a refusal. Merges
commute, and so do meets; one that has been made changes nothing when it is made again; and whether
a merge is refused does not depend on the merges before it. So the order of the sources is of no
account, and a second pass changes nothing.
-/

namespace PackedSet

def Answer.refusal? : Answer → Option SizeMismatch
  | tooSmall mismatch => some mismatch
  | _ => none

@[simp] theorem Answer.refusal?_flag (b : Bool) : (flag b).refusal? = none := rfl

/-- The answer of an edit in place that changes nothing and may be refused. -/
def Answer.quiet : Option SizeMismatch → Answer
  | none => flag false
  | some mismatch => tooSmall mismatch

namespace BitSet

variable {edit : BitSet → Edit BitSet}

def pass (edit : BitSet → Edit BitSet) (d : BitSet) (sources : List BitSet) :
    Outcome (List Answer) := Edit.applyAll d (sources.map edit)

theorem pass_cons (d a : BitSet) (rest : List BitSet) : pass edit d (a :: rest) =
    ⟨((edit a).apply d).result :: (pass edit ((edit a).apply d).set rest).result,
      (pass edit ((edit a).apply d).set rest).set,
      ((edit a).apply d).events ++ (pass edit ((edit a).apply d).set rest).events⟩ := rfl

theorem set_pass (d : BitSet) (sources : List BitSet) : (pass edit d sources).set =
    sources.foldl (fun t a => ((edit a).apply t).set) d := by
  induction sources generalizing d with
  | nil => rfl
  | cons a rest ih =>
      rw [pass_cons, List.foldl_cons]
      exact ih _

/-- Edits with a source that can be made in any order. Only an edit that changes the set says so,
and one that leaves the set as it is reports no more than its refusal. -/
structure Settling (edit : BitSet → Edit BitSet) : Prop where
  comm : ∀ d a b, ((edit b).apply ((edit a).apply d).set).set =
    ((edit a).apply ((edit b).apply d).set).set
  again : ∀ d a, ((edit a).apply ((edit a).apply d).set).set = ((edit a).apply d).set
  changed_iff : ∀ d a, ((edit a).apply d).result = .flag true ↔ ((edit a).apply d).set ≠ d
  unchanged : ∀ d a, ((edit a).apply d).set = d →
    ((edit a).apply d).result = .quiet ((edit a).apply d).result.refusal? ∧
      ((edit a).apply d).events = ((edit a).apply d).result.alarm
  refusal : ∀ d a b, ((edit a).apply ((edit b).apply d).set).result.refusal? =
    ((edit a).apply d).result.refusal?

/-- Two passes over the same sources in two orders, and a third one after them in any order. The
sources of two passes are matched by their indices. -/
structure OrderFree (edit : BitSet → Edit BitSet) (d : BitSet)
    (sources other again : List BitSet) : Prop where
  set_eq : (pass edit d sources).set = (pass edit d other).set
  refusal_eq : ∀ i j : Nat, sources[i]? = other[j]? →
    (pass edit d sources).result[i]?.map Answer.refusal? =
      (pass edit d other).result[j]?.map Answer.refusal?
  changed_iff :
    .flag true ∈ (pass edit d sources).result ↔ .flag true ∈ (pass edit d other).result
  again_set : (pass edit (pass edit d sources).set again).set = (pass edit d sources).set
  again_result : ∀ i j : Nat, sources[i]? = again[j]? →
    (pass edit (pass edit d sources).set again).result[j]? =
      (pass edit d sources).result[i]?.map fun answer => .quiet answer.refusal?
  again_events : ∀ old new,
    .grew old new ∉ (pass edit (pass edit d sources).set again).events

theorem pass_of_settled {t : BitSet} {sources : List BitSet}
    (h : ∀ a ∈ sources, ((edit a).apply t).set = t) :
    pass edit t sources = ⟨sources.map fun a => ((edit a).apply t).result, t,
      sources.flatMap fun a => ((edit a).apply t).events⟩ := by
  induction sources with
  | nil => rfl
  | cons a rest ih =>
      have hrest := ih fun b hb => h b (List.mem_cons_of_mem a hb)
      rw [pass_cons, h a List.mem_cons_self, hrest, List.map_cons, List.flatMap_cons]

namespace Settling

variable (h : Settling edit)
include h

/-- An edit that has been made stays made through the later ones. -/
theorem set_foldl_of_settled {t a : BitSet} (ha : ((edit a).apply t).set = t)
    (sources : List BitSet) :
    let final := sources.foldl (fun t a => ((edit a).apply t).set) t
    ((edit a).apply final).set = final := by
  induction sources generalizing t with
  | nil => exact ha
  | cons b rest ih =>
      apply ih
      rw [h.comm, ha]

theorem settled_of_mem {d a : BitSet} {sources : List BitSet} (ha : a ∈ sources) :
    ((edit a).apply (pass edit d sources).set).set = (pass edit d sources).set := by
  induction sources generalizing d with
  | nil => cases ha
  | cons b rest ih =>
      rcases List.mem_cons.1 ha with rfl | ha
      · rw [set_pass, List.foldl_cons]
        exact h.set_foldl_of_settled (h.again d a) rest
      · exact ih ha

theorem set_pass_of_perm {d : BitSet} {sources other : List BitSet} (hp : sources.Perm other) :
    (pass edit d sources).set = (pass edit d other).set := by
  rw [set_pass, set_pass]
  exact hp.foldl_eq' (fun a _ b _ t => h.comm t a b) d

theorem map_refusal?_pass (d : BitSet) (sources : List BitSet) :
    (pass edit d sources).result.map Answer.refusal? =
      sources.map fun a => ((edit a).apply d).result.refusal? := by
  induction sources generalizing d with
  | nil => rfl
  | cons b rest ih =>
      rw [pass_cons, List.map_cons, List.map_cons, ih]
      exact congrArg _ (List.map_congr_left fun a _ => h.refusal d a b)

theorem getElem?_refusal? (d : BitSet) (sources : List BitSet) (i : Nat) :
    (pass edit d sources).result[i]?.map Answer.refusal? =
      sources[i]?.map fun a => ((edit a).apply d).result.refusal? := by
  rw [← List.getElem?_map, h.map_refusal?_pass, List.getElem?_map]

theorem refusal?_pass (d a : BitSet) (sources : List BitSet) :
    ((edit a).apply (pass edit d sources).set).result.refusal? =
      ((edit a).apply d).result.refusal? := by
  induction sources generalizing d with
  | nil => rfl
  | cons b rest ih => exact (ih _).trans (h.refusal d a b)

/-- Something changes in a pass exactly if an edit of it would change the set that is there at the
start. -/
theorem flag_mem_pass_iff (d : BitSet) (sources : List BitSet) :
    .flag true ∈ (pass edit d sources).result ↔ ∃ a ∈ sources, ((edit a).apply d).set ≠ d := by
  induction sources generalizing d with
  | nil => simp [pass, Edit.applyAll]
  | cons b rest ih =>
      rw [pass_cons, List.mem_cons, eq_comm, h.changed_iff, ih, List.exists_mem_cons_iff]
      by_cases hb : ((edit b).apply d).set = d
      · rw [hb]
      · exact iff_of_true (Or.inl hb) (Or.inl hb)

theorem orderFree (d : BitSet) {sources other again : List BitSet} (hother : sources.Perm other)
    (hagain : sources.Perm again) : OrderFree edit d sources other again := by
  have hsettled : ∀ a ∈ again,
      ((edit a).apply (pass edit d sources).set).set = (pass edit d sources).set :=
    fun a ha => h.settled_of_mem (hagain.mem_iff.2 ha)
  refine ⟨h.set_pass_of_perm hother, fun i j hij => ?_, ?_, ?_, fun i j hij => ?_,
    fun old new hmem => ?_⟩
  · rw [h.getElem?_refusal?, h.getElem?_refusal?, hij]
  · rw [h.flag_mem_pass_iff, h.flag_mem_pass_iff]
    exact exists_congr fun a => and_congr_left' hother.mem_iff
  · rw [pass_of_settled hsettled]
  · have hquiet : (again.map fun a => ((edit a).apply (pass edit d sources).set).result) =
        again.map fun a => .quiet ((edit a).apply d).result.refusal? := by
      refine List.map_congr_left fun a ha => ?_
      rw [(h.unchanged _ a (hsettled a ha)).1, h.refusal?_pass]
    have hfirst := congrArg (Option.map Answer.quiet) (h.getElem?_refusal? d sources i)
    rw [Option.map_map, Option.map_map, hij] at hfirst
    rw [pass_of_settled hsettled, hquiet, List.getElem?_map]
    exact hfirst.symm
  · rw [pass_of_settled hsettled, List.mem_flatMap] at hmem
    obtain ⟨a, ha, hevent⟩ := hmem
    rw [(h.unchanged _ a (hsettled a ha)).2] at hevent
    exact Answer.grew_notMem_alarm _ old new hevent

end Settling

section merge

variable (d a b : BitSet)

theorem fits_set_merge {required : Nat} : (d.merge a).set.Fits required ↔ d.Fits required := by
  rw [Fits, Fits, growable_merge]
  cases hg : d.growable with
  | true => exact iff_of_true (Or.inr rfl) (Or.inr rfl)
  | false =>
      have hcount : (d.merge a).set.wordCount = d.wordCount :=
        wordCount_apply_of_fixed hg (.merge a)
      rw [hcount]

variable {d a b}

theorem set_merge_of_not_fits (h : ¬ d.Fits a.extent) : (d.merge a).set = d := by
  rw [d.merge_of_not_fits h]

theorem contains_set_merge (h : d.Fits a.extent) (n : Nat) :
    (d.merge a).set.contains n = (d.contains n || a.contains n) :=
  d.contains_merge (d.result_merge h) n

/-- Two merges that fit: the members come together, and the larger demand decides on the size. -/
theorem set_merge_merge_eq {t : BitSet} (ha : d.Fits a.extent) (hb : d.Fits b.extent)
    (hg : t.growable = d.growable) (hw : t.wordCount = room d.wordCount (max a.extent b.extent))
    (ht : ∀ n, t.contains n = (d.contains n || a.contains n || b.contains n)) :
    ((d.merge a).set.merge b).set = t := by
  have hb' : (d.merge a).set.Fits b.extent := (d.fits_set_merge a).2 hb
  refine ext_words ?_ ?_ fun n => ?_
  · rw [growable_merge, growable_merge, hg]
  · rw [wordCount_merge _ hb', d.wordCount_merge ha, room_room, hw]
  · rw [contains_set_merge hb', contains_set_merge ha, ht]

theorem set_merge_comm (d a b : BitSet) :
    ((d.merge a).set.merge b).set = ((d.merge b).set.merge a).set := by
  by_cases ha : d.Fits a.extent
  · by_cases hb : d.Fits b.extent
    · have ha' : (d.merge b).set.Fits a.extent := (d.fits_set_merge b).2 ha
      refine set_merge_merge_eq ha hb ?_ ?_ fun n => ?_
      · rw [growable_merge, growable_merge]
      · rw [wordCount_merge _ ha', d.wordCount_merge hb, room_room, Nat.max_comm]
      · rw [contains_set_merge ha', contains_set_merge hb, Bool.or_right_comm]
    · rw [set_merge_of_not_fits hb, set_merge_of_not_fits fun h => hb ((d.fits_set_merge a).1 h)]
  · rw [set_merge_of_not_fits ha, set_merge_of_not_fits fun h => ha ((d.fits_set_merge b).1 h)]

theorem extent_le_of_subset (h : a.plain.members ⊆ d.plain.members) : a.extent ≤ d.wordCount := by
  rw [extent_eq, wordsOf_le_iff]
  exact fun n hn => lt_capacity_of_mem (d.mem_plain.1 (h hn))

theorem set_merge_eq_self_iff :
    (d.merge a).set = d ↔ (d.Fits a.extent → a.plain.members ⊆ d.plain.members) := by
  by_cases ha : d.Fits a.extent
  · rw [imp_iff_right ha]
    constructor
    · intro h n hn
      rw [mem_plain] at hn ⊢
      rw [← h, contains_set_merge ha, hn, Bool.or_true]
    · intro h
      refine ext_words (d.growable_merge a) ?_ fun n => ?_
      · rw [d.wordCount_merge ha, room_of_le (extent_le_of_subset h)]
      · rw [contains_set_merge ha, Bool.or_eq_left_iff_imp, ← mem_plain, ← mem_plain]
        exact @h n
  · exact iff_of_true (set_merge_of_not_fits ha) fun h => absurd h ha

theorem set_merge_self (d a : BitSet) : ((d.merge a).set.merge a).set = (d.merge a).set := by
  rw [set_merge_eq_self_iff, fits_set_merge]
  intro ha n hn
  rw [mem_plain] at hn ⊢
  rw [contains_set_merge ha, hn, Bool.or_true]

theorem result_apply_merge (ha : d.Fits a.extent) : ((Edit.merge a).apply d).result =
    .flag (decide (¬ a.plain.members ⊆ d.plain.members)) :=
  congrArg Answer.ofMerge (d.result_merge ha)

theorem result_apply_merge_of_not_fits (ha : ¬ d.Fits a.extent) :
    ((Edit.merge a).apply d).result = .tooSmall ⟨a.extent, d.wordCount⟩ := by
  rw [Edit.apply, d.merge_of_not_fits ha]
  rfl

theorem refusal?_merge_merge (d a b : BitSet) :
    ((Edit.merge a).apply (d.merge b).set).result.refusal? =
      ((Edit.merge a).apply d).result.refusal? := by
  by_cases ha : d.Fits a.extent
  · rw [result_apply_merge ha, result_apply_merge ((d.fits_set_merge b).2 ha),
      Answer.refusal?_flag, Answer.refusal?_flag]
  · have hcount : (d.merge b).set.wordCount = d.wordCount :=
      wordCount_apply_of_fixed (not_fits_iff.1 ha).2 (.merge b)
    rw [result_apply_merge_of_not_fits ha,
      result_apply_merge_of_not_fits fun h => ha ((d.fits_set_merge b).1 h), hcount]

/-- An edit that grows at most once and leaves the set as it is reports its alarm only. -/
theorem events_of_unchanged {e : Edit BitSet} (hcounts :
    d.counts e = [d.wordCount, (e.apply d).set.wordCount]) (h : (e.apply d).set = d) :
    (e.apply d).events = (e.apply d).result.alarm := by
  rw [(d.accounts_apply e).events_eq, hcounts, h, growths_pair_self, List.nil_append]

theorem settling_merge : Settling .merge where
  comm := set_merge_comm
  again := set_merge_self
  changed_iff d a := by
    by_cases ha : d.Fits a.extent
    · have hset : ((Edit.merge a).apply d).set = d ↔ a.plain.members ⊆ d.plain.members :=
        set_merge_eq_self_iff.trans (imp_iff_right ha)
      rw [result_apply_merge ha, ne_eq, hset, Answer.flag.injEq, decide_eq_true_eq]
    · rw [result_apply_merge_of_not_fits ha]
      exact iff_of_false Answer.noConfusion fun hne => hne (set_merge_of_not_fits ha)
  unchanged d a h := by
    refine ⟨?_, events_of_unchanged rfl h⟩
    by_cases ha : d.Fits a.extent
    · have hsub := set_merge_eq_self_iff.1 h ha
      rw [result_apply_merge ha, decide_eq_false (not_not_intro hsub)]
      rfl
    · rw [result_apply_merge_of_not_fits ha]
      rfl
  refusal := refusal?_merge_merge

end merge

section meet

theorem set_meet_eq_self_iff {d a : BitSet} :
    (d.meet a).set = d ↔ d.plain.members ⊆ a.plain.members := by
  constructor
  · intro h n hn
    rw [mem_plain] at hn ⊢
    rw [← h, d.contains_meet, Bool.and_eq_true] at hn
    exact hn.2
  · intro h
    refine ext_words rfl (d.wordCount_meet a) fun n => ?_
    rw [d.contains_meet, Bool.and_eq_left_iff_imp, ← mem_plain, ← mem_plain]
    exact @h n

theorem growable_meet (d a : BitSet) : (d.meet a).set.growable = d.growable := rfl

theorem set_meet_comm (d a b : BitSet) :
    ((d.meet a).set.meet b).set = ((d.meet b).set.meet a).set := by
  refine ext_words ?_ ?_ fun n => ?_
  · rw [growable_meet, growable_meet, growable_meet, growable_meet]
  · rw [wordCount_meet, d.wordCount_meet, wordCount_meet, d.wordCount_meet]
  · rw [contains_meet, d.contains_meet, contains_meet, d.contains_meet, Bool.and_right_comm]

theorem set_meet_self (d a : BitSet) : ((d.meet a).set.meet a).set = (d.meet a).set := by
  refine set_meet_eq_self_iff.2 fun n hn => ?_
  rw [mem_plain, d.contains_meet, Bool.and_eq_true] at hn
  exact a.mem_plain.2 hn.2

theorem result_apply_meet (d a : BitSet) : ((Edit.meet a).apply d).result =
    .flag (decide (¬ d.plain.members ⊆ a.plain.members)) :=
  congrArg (fun p : Bool × PlainSet => Answer.flag p.1) (d.plain_meet a)

theorem settling_meet : Settling .meet where
  comm := set_meet_comm
  again := set_meet_self
  changed_iff d a := by
    have hset : ((Edit.meet a).apply d).set = d ↔ d.plain.members ⊆ a.plain.members :=
      set_meet_eq_self_iff
    rw [result_apply_meet, ne_eq, hset, Answer.flag.injEq, decide_eq_true_eq]
  unchanged d a h := by
    refine ⟨?_, events_of_unchanged rfl h⟩
    have hsub := set_meet_eq_self_iff.1 h
    rw [result_apply_meet, decide_eq_false (not_not_intro hsub)]
    rfl
  refusal d a b := by
    rw [result_apply_meet, result_apply_meet, Answer.refusal?_flag, Answer.refusal?_flag]

theorem eq_flag_false_of_mem_again {d : BitSet} {sources again : List BitSet}
    (h : sources.Perm again) {answer : Answer}
    (ha : answer ∈ (pass .meet (pass .meet d sources).set again).result) :
    answer = .flag false := by
  rw [pass_of_settled fun a ha => settling_meet.settled_of_mem (h.mem_iff.2 ha)] at ha
  obtain ⟨a, hmem, rfl⟩ := List.mem_map.1 ha
  have hset := settling_meet.settled_of_mem (d := d) (h.mem_iff.2 hmem)
  rw [result_apply_meet, decide_eq_false (not_not_intro (set_meet_eq_self_iff.1 hset))]

end meet

/-- The order in which sources are merged, or met, is of no account: the set after a pass, every
refusal with its numbers and whether something has changed are the same. A further pass in any
order changes nothing, does not grow, and repeats the refusals; one of meets answers `false`
only. -/
theorem order_of_sources_free (d : BitSet) {sources other again : List BitSet}
    (hother : sources.Perm other) (hagain : sources.Perm again) :
    OrderFree .merge d sources other again ∧ OrderFree .meet d sources other again ∧
      ∀ answer ∈ (pass .meet (pass .meet d sources).set again).result, answer = .flag false :=
  ⟨settling_merge.orderFree d hother hagain, settling_meet.orderFree d hother hagain,
    fun _ ha => eq_flag_false_of_mem_again hagain ha⟩

/-- A fixed set of two words refuses a source of three in every order. -/
theorem order_of_sources_free_refusing :
    let d : BitSet := ⟨#[1, 0], false⟩
    let a : BitSet := ⟨#[2, 0, 1], true⟩
    let b : BitSet := ⟨#[4], false⟩
    let c : BitSet := ⟨#[0, 9], false⟩
    (pass .merge d [a, b, c]).result = [.tooSmall ⟨3, 2⟩, .flag true, .flag true] ∧
      [a, b, c].Perm [c, a, b] ∧ [a, b, c].Perm [b, c, a] ∧
      OrderFree .merge d [a, b, c] [c, a, b] [b, c, a] ∧
      OrderFree .meet d [a, b, c] [c, a, b] [b, c, a] ∧
      ∀ answer ∈ (pass .meet (pass .meet d [a, b, c]).set [b, c, a]).result,
        answer = .flag false := by
  intro d a b c
  have hother : [a, b, c].Perm [c, a, b] := by decide
  have hagain : [a, b, c].Perm [b, c, a] := by decide
  exact ⟨by decide, hother, hagain, order_of_sources_free d hother hagain⟩

end BitSet

end PackedSet
