import PackedSet.Liveness.Solve
import PackedSet.Proofs.Capacity
import PackedSet.Proofs.Failure
import PackedSet.Proofs.Liveness.Equations

/-!
# A visit of a block

`facts` are the facts that the sets of a run stand for. The sets start growable and stay so: a
merge into one succeeds, and a variable that is to be taken out from past the capacity is not in
the set. No step of a visit fails, therefore, and it does to the facts what `Facts.visit` does.
-/

namespace PackedSet.Liveness

section growable

variable {s : BitSet}

theorem merge_of_growable (hg : s.growable = true) (src : BitSet) :
    (∃ changed, (s.merge src).result = .ok changed ∧
      (changed = true ↔ ¬ ∀ n, n ∈ src → n ∈ s)) ∧
    (s.merge src).set.growable = true ∧ ∀ n, n ∈ (s.merge src).set ↔ n ∈ s ∨ n ∈ src := by
  have hmerge := s.result_merge (BitSet.fits_of_growable hg src.extent)
  refine ⟨⟨_, hmerge, ?_⟩, (s.growable_merge src).trans hg, fun n => ?_⟩
  · rw [decide_eq_true_eq, Finset.subset_iff]
    simp only [BitSet.mem_plain, BitSet.mem_iff]
  · rw [BitSet.mem_iff, s.contains_merge hmerge, Bool.or_eq_true]
    rfl

theorem mergeAll_of_growable (hg : s.growable = true) (sources : List BitSet) :
    (mergeAll s sources).result = .ok () ∧ (mergeAll s sources).set.growable = true ∧
      ∀ n, n ∈ (mergeAll s sources).set ↔ n ∈ s ∨ ∃ src ∈ sources, n ∈ src := by
  have hstep (t src : BitSet) (ht : t.growable = true) :
      ((t.merge src).map fun r => r.map fun _ => ()).result = .ok () := by
    obtain ⟨⟨changed, hc, -⟩, -⟩ := merge_of_growable ht src
    rw [Outcome.result_map, hc]
    rfl
  obtain ⟨hok, hgrow, hset⟩ := Outcome.forEach_of_ok (P := fun t => t.growable = true) hstep
    (fun t src ht => (merge_of_growable ht src).2.1) hg sources
  refine ⟨hok, hgrow, fun n => ?_⟩
  rw [mergeAll, hset]
  clear hok hgrow hset
  induction sources generalizing s with
  | nil => simp
  | cons src rest ih =>
      obtain ⟨-, hnext, hmem⟩ := merge_of_growable hg src
      rw [List.foldl_cons, List.exists_mem_cons_iff, ← or_assoc, ← hmem]
      exact ih hnext

/-- Taking out one variable. One past the capacity is not in the set. -/
theorem kill_step (s : BitSet) (d : Nat) :
    let o : Outcome (Except Fault Unit) := if d < s.capacity then s.erase d else .done s
    o.result = .ok () ∧ o.set.growable = s.growable ∧ ∀ n, n ∈ o.set ↔ n ∈ s ∧ n ≠ d := by
  by_cases hd : d < s.capacity
  · rw [if_pos hd, s.erase_of_lt hd]
    refine ⟨rfl, rfl, fun n => ?_⟩
    rw [Outcome.done, BitSet.mem_iff, s.contains_unmark hd, Bool.and_eq_true, Bool.not_eq_true',
      decide_eq_false_iff_not, and_comm, ne_comm]
    rfl
  · rw [if_neg hd]
    refine ⟨rfl, rfl, fun n => (and_iff_left_of_imp fun hn hnd => hd ?_).symm⟩
    exact hnd ▸ BitSet.lt_capacity_of_mem hn

theorem kill_spec (s : BitSet) (defs : List Nat) :
    (kill s defs).result = .ok () ∧ (kill s defs).set.growable = s.growable ∧
      ∀ n, n ∈ (kill s defs).set ↔ n ∈ s ∧ n ∉ defs := by
  obtain ⟨hok, hgrow, hset⟩ := Outcome.forEach_of_ok (P := fun t => t.growable = s.growable)
    (fun t d _ => (kill_step t d).1) (fun t d ht => (kill_step t d).2.1.trans ht) rfl defs
  refine ⟨hok, hgrow, fun n => ?_⟩
  rw [kill, hset]
  clear hok hgrow hset
  induction defs generalizing s with
  | nil => simp
  | cons d rest ih =>
      rw [List.foldl_cons, ih, (kill_step s d).2.2, List.mem_cons, not_or, and_assoc]

theorem transfer_of_growable (hg : s.growable = true) (b : Block) :
    (transfer b s).result = .ok () ∧
      {n | n ∈ (transfer b s).set} = b.before {n | n ∈ s} := by
  obtain ⟨hok, hgrow, hmem⟩ := kill_spec s b.defs
  have hextend := BitSet.extend_of_growable (hgrow.trans hg) b.uses
  rw [transfer, Outcome.andThen_of_ok hok]
  refine ⟨hextend, Set.ext fun n => ?_⟩
  rw [Set.mem_ofPred_eq, BitSet.mem_iff, BitSet.contains_extend _ hextend, Bool.or_eq_true,
    decide_eq_true_eq, ← BitSet.mem_iff, hmem]
  rfl

end growable

/-- The facts that a list of flows stands for. Nothing is live in a block past the list. -/
def facts (flows : List Flow) : Facts where
  into i := {n | ∃ flow ∈ flows[i]?, n ∈ flow.into}
  out i := {n | ∃ flow ∈ flows[i]?, n ∈ flow.out}

theorem facts_set {flows : List Flow} {i : Nat} (hi : i < flows.length) (flow : Flow) :
    facts (flows.set i flow) =
      { into := Function.update (facts flows).into i {n | n ∈ flow.into}
        out := Function.update (facts flows).out i {n | n ∈ flow.out} } := by
  refine Facts.ext (funext fun j => ?_) (funext fun j => ?_)
  all_goals
    by_cases hj : j = i
    · subst hj
      simp [facts, hi]
    · simp [facts, Ne.symm hj, hj]

theorem setOf_mem_into {flows : List Flow} {i : Nat} {flow : Flow} (h : flows[i]? = some flow) :
    (facts flows).into i = {n | n ∈ flow.into} := by
  simp [facts, h]

theorem setOf_mem_out {flows : List Flow} {i : Nat} {flow : Flow} (h : flows[i]? = some flow) :
    (facts flows).out i = {n | n ∈ flow.out} := by
  simp [facts, h]

/-- What is live into the successors, as the sets that a visit merges. -/
theorem mapM_flowAt {flows : List Flow} {indices : List Nat}
    (h : ∀ j ∈ indices, j < flows.length) :
    ∃ sources, (indices.mapM fun j => (flowAt flows j).map Flow.into) = .ok sources ∧
      ∀ n, (∃ src ∈ sources, n ∈ src) ↔ ∃ j ∈ indices, n ∈ (facts flows).into j := by
  induction indices with
  | nil => exact ⟨[], rfl, by simp⟩
  | cons j rest ih =>
      obtain ⟨sources, hsources, hmem⟩ := ih fun k hk => h k (List.mem_cons_of_mem j hk)
      obtain ⟨flow, hj⟩ : ∃ flow, flows[j]? = some flow :=
        ⟨_, List.getElem?_eq_getElem (h j List.mem_cons_self)⟩
      refine ⟨flow.into :: sources, ?_, fun n => ?_⟩
      · rw [List.mapM_cons, hsources, flowAt, hj]
        rfl
      · rw [List.exists_mem_cons_iff, List.exists_mem_cons_iff, hmem, setOf_mem_into hj]
        rfl

/-- A flow for each block, with sets that may grow. -/
structure Ready (g : Graph) (flows : List Flow) : Prop where
  length : flows.length = g.length
  into : ∀ flow ∈ flows, flow.into.growable = true
  out : ∀ flow ∈ flows, flow.out.growable = true

theorem eq_of_mem_start {g : Graph} {flow : Flow} (h : flow ∈ start g) :
    flow = ⟨.expandable 0, .expandable 0⟩ := by
  obtain ⟨b, -, rfl⟩ := List.mem_map.1 h
  rfl

theorem facts_start (g : Graph) : facts (start g) = ⟨fun _ => ∅, fun _ => ∅⟩ := by
  refine Facts.ext (funext fun i => ?_) (funext fun i => ?_)
  all_goals
    refine Set.eq_empty_of_forall_notMem fun n hn => ?_
    obtain ⟨flow, hflow, hmem⟩ := hn
    rw [eq_of_mem_start (List.mem_of_getElem? hflow), BitSet.mem_iff] at hmem
    simp [BitSet.expandable] at hmem

namespace Ready

variable {g : Graph} {flows : List Flow}

theorem start (g : Graph) : Ready g (start g) where
  length := List.length_map ..
  into _ h := eq_of_mem_start h ▸ rfl
  out _ h := eq_of_mem_start h ▸ rfl

theorem set (h : Ready g flows) (i : Nat) {flow : Flow} (hinto : flow.into.growable = true)
    (hout : flow.out.growable = true) : Ready g (flows.set i flow) where
  length := (List.length_set ..).trans h.length
  into f hf := (List.mem_or_eq_of_mem_set hf).elim (h.into f) fun he => he ▸ hinto
  out f hf := (List.mem_or_eq_of_mem_set hf).elim (h.out f) fun he => he ▸ hout

end Ready

/-- What a visit leaves when no step of it fails. -/
theorem visit_of_ok {g : Graph} {st : State} {i : Nat} {b : Block} {flow : Flow}
    {sources : List BitSet} {joined moved : BitSet} {changed : Bool} (hb : g[i]? = some b)
    (hflow : st.flows[i]? = some flow)
    (hsources : (b.successors.mapM fun j => (flowAt st.flows j).map Flow.into) = .ok sources)
    (hjoined : (mergeAll flow.out sources).result = .ok ())
    (hout : (mergeAll flow.out sources).set = joined)
    (hmoved : (transfer b joined).result = .ok ()) (hset : (transfer b joined).set = moved)
    (hmerged : (flow.into.merge moved).result = .ok changed) :
    ∃ events, visit g st i = .ok
      ⟨st.flows.set i ⟨(flow.into.merge moved).set, joined⟩, st.changed || changed, events⟩ := by
  subst hout hset
  refine ⟨st.events ++ (mergeAll flow.out sources).events ++
    (transfer b (mergeAll flow.out sources).set).events ++
    (flow.into.merge (transfer b (mergeAll flow.out sources).set).set).events, ?_⟩
  simp only [visit, hb, flowAt, hflow, bind, Except.bind, Except.mapError, pure, Except.pure]
  simp only [flowAt] at hsources
  simp only [hsources, hjoined, hmoved, hmerged]

/-- No step of a visit fails, and it does to the facts what `Facts.visit` does. It notes a change
exactly if more is live into the block. -/
theorem visit_refines {g : Graph} (hg : g.Closed) {st : State} (hst : Ready g st.flows)
    {i : Nat} {b : Block} (hb : g[i]? = some b) :
    ∃ st', visit g st i = .ok st' ∧ Ready g st'.flows ∧
      facts st'.flows = (facts st.flows).visit i b ∧
      (st'.changed = true ↔
        st.changed = true ∨ (facts st'.flows).into ≠ (facts st.flows).into) := by
  obtain ⟨hi, hget⟩ := List.getElem?_eq_some_iff.1 hb
  have hlt : i < st.flows.length := hst.length ▸ hi
  obtain ⟨flow, hflow⟩ : ∃ flow, st.flows[i]? = some flow := ⟨_, List.getElem?_eq_getElem hlt⟩
  have hmem : flow ∈ st.flows := List.mem_of_getElem? hflow
  have hsuccessors : ∀ j ∈ b.successors, j < st.flows.length := fun j hj =>
    hst.length ▸ hg b (hget ▸ List.getElem_mem hi) j hj
  obtain ⟨sources, hsources, hahead⟩ := mapM_flowAt hsuccessors
  obtain ⟨hjoined, hjoinedGrows, hjoinedMem⟩ := mergeAll_of_growable (hst.out flow hmem) sources
  generalize hset : (mergeAll flow.out sources).set = joined at *
  obtain ⟨hmoved, hmovedMem⟩ := transfer_of_growable hjoinedGrows b
  generalize hset' : (transfer b joined).set = moved at *
  obtain ⟨⟨changed, hmerged, hchanged⟩, hmergedGrows, hmergedMem⟩ :=
    merge_of_growable (hst.into flow hmem) moved
  obtain ⟨events, hvisit⟩ := visit_of_ok hb hflow hsources hjoined hset hmoved hset' hmerged
  have hout : {n | n ∈ joined} = (facts st.flows).out i ∪ b.ahead (facts st.flows).into := by
    rw [setOf_mem_out hflow]
    refine Set.ext fun n => (hjoinedMem n).trans (or_congr Iff.rfl ?_)
    rw [hahead, Block.ahead, Set.mem_iUnion₂]
    simp only [exists_prop]
  rw [hout] at hmovedMem
  have hfacts : facts (st.flows.set i ⟨(flow.into.merge moved).set, joined⟩) =
      (facts st.flows).visit i b := by
    have hinto : {n | n ∈ (flow.into.merge moved).set} = (facts st.flows).into i ∪
        b.before ((facts st.flows).out i ∪ b.ahead (facts st.flows).into) := by
      rw [setOf_mem_into hflow, ← hmovedMem]
      exact Set.ext hmergedMem
    rw [facts_set hlt, hinto, hout]
    rfl
  refine ⟨_, hvisit, hst.set i hmergedGrows hjoinedGrows, hfacts, ?_⟩
  rw [Bool.or_eq_true, hchanged, hfacts, Ne, Facts.visit_into_eq_iff, ← hmovedMem,
    setOf_mem_into hflow]
  rfl

end PackedSet.Liveness
