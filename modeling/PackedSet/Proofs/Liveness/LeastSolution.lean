import PackedSet.Liveness.Report
import PackedSet.Proofs.Liveness.Visit

/-!
# The rounds find the least solution

A round does to the facts what `Graph.pass` does. One that changes something adds an entry to what
is live into the blocks, and there are no more of them than pairs of a block and a used variable.
The first round that changes nothing ends in facts that satisfy the equations in both directions,
below every other solution.
-/

namespace PackedSet.Liveness

/-- What holds between the rounds: the sets may grow, their facts contain nothing that the
equations do not ask for, and all closed facts contain them. -/
structure Underway (g : Graph) (flows : List Flow) : Prop extends Ready g flows where
  supports : g.Supports (facts flows)
  below : ∀ f, g.Closes f → facts flows ≤ f

theorem Underway.start (g : Graph) : Underway g (start g) where
  toReady := Ready.start g
  supports i b _ := by
    rw [facts_start]
    exact ⟨Set.empty_subset _, Set.empty_subset _⟩
  below f _ := by
    rw [facts_start]
    exact ⟨fun i => Set.empty_subset _, fun i => Set.empty_subset _⟩

section round

variable {g : Graph} (hg : g.Closed)
include hg

theorem foldlM_visit_refines {st : State} (hst : Ready g st.flows) {indices : List Nat}
    (h : ∀ i ∈ indices, i < g.length) :
    ∃ st', indices.foldlM (visit g) st = .ok st' ∧ Ready g st'.flows ∧
      facts st'.flows = indices.foldl g.advance (facts st.flows) ∧
      (st'.changed = true ↔
        st.changed = true ∨ (facts st'.flows).into ≠ (facts st.flows).into) := by
  induction indices generalizing st with
  | nil => exact ⟨st, rfl, hst, rfl, (or_iff_left (not_not_intro rfl)).symm⟩
  | cons i rest ih =>
      obtain ⟨b, hb⟩ : ∃ b, g[i]? = some b :=
        ⟨_, List.getElem?_eq_getElem (h i List.mem_cons_self)⟩
      obtain ⟨next, hvisit, hnext, hfacts, hchanged⟩ := visit_refines hg hst hb
      obtain ⟨last, hrest, hlast, hfacts', hchanged'⟩ :=
        ih hnext fun j hj => h j (List.mem_cons_of_mem i hj)
      refine ⟨last, ?_, hlast, ?_, ?_⟩
      · rw [List.foldlM_cons, hvisit]
        exact hrest
      · rw [hfacts', hfacts, List.foldl_cons, Graph.advance_of_getElem? hb]
      · have hfirst : facts st.flows ≤ facts next.flows := hfacts ▸ Facts.le_visit
        have hsecond : facts next.flows ≤ facts last.flows :=
          hfacts' ▸ Graph.le_foldl_advance rest
        rw [hchanged', hchanged, or_assoc, Ne, Ne, Ne, Facts.into_eq_iff hfirst hsecond,
          not_and_or]

theorem round_refines {flows : List Flow} (hflows : Ready g flows) :
    ∃ st, round g flows = .ok st ∧ Ready g st.flows ∧ facts st.flows = g.pass (facts flows) ∧
      (st.changed = true ↔ (facts st.flows).into ≠ (facts flows).into) := by
  have hindices : ∀ i ∈ (List.range g.length).reverse, i < g.length := fun i hi =>
    List.mem_range.1 (List.mem_reverse.1 hi)
  obtain ⟨st, hround, hst, hfacts, hchanged⟩ :=
    foldlM_visit_refines hg (show Ready g (State.mk flows false []).flows from hflows) hindices
  exact ⟨st, hround, hst, hfacts, hchanged.trans (or_iff_right Bool.false_ne_true)⟩

theorem Underway.round {flows : List Flow} (h : Underway g flows) :
    ∃ st, round g flows = .ok st ∧ Underway g st.flows ∧
      (st.changed = false → g.Solves (facts st.flows)) ∧
      (st.changed = true → (facts flows).entries.ncard < (facts st.flows).entries.ncard) := by
  obtain ⟨st, hround, hst, hfacts, hchanged⟩ := round_refines hg h.toReady
  have hnext : Underway g st.flows :=
    { toReady := hst
      supports := hfacts ▸ h.supports.foldl_advance _
      below := fun f hf => hfacts ▸ Graph.foldl_advance_le (h.below f hf) hf _ }
  refine ⟨st, hround, hnext, fun hc => ?_, fun hc => ?_⟩
  · have hquiet : (facts st.flows).into = (facts flows).into := by
      rwa [← Bool.not_eq_true, hchanged, not_not] at hc
    rw [hfacts] at hquiet ⊢
    exact h.supports.solves_pass hquiet
  · have hle : facts flows ≤ facts st.flows := hfacts ▸ Graph.le_foldl_advance _
    exact Facts.ncard_entries_lt (hnext.below _ (Facts.closes_everywhere g)) hle (hchanged.1 hc)

end round

section iterate

variable {g : Graph} {flows : List Flow} {st : State} {limit : Nat}

theorem iterate_of_quiet (hround : round g flows = .ok st) (hc : st.changed = false)
    (limit : Nat) :
    iterate g flows (limit + 1) = .ok ⟨[⟨false, st.events⟩], st.flows⟩ := by
  rw [iterate, hround]
  simp [bind, Except.bind, hc, pure, Except.pure]

theorem iterate_of_changed (hround : round g flows = .ok st) (hc : st.changed = true)
    (limit : Nat) :
    iterate g flows (limit + 1) = (iterate g st.flows limit).map fun later =>
      ⟨⟨true, st.events⟩ :: later.rounds, later.flows⟩ := by
  rw [iterate, hround]
  cases hlater : iterate g st.flows limit with
  | error e => simp [bind, Except.bind, hc, hlater, Except.map]
  | ok later => simp [bind, Except.bind, hc, hlater, Except.map, pure, Except.pure]

/-- The limit does not matter as long as the rounds stay within it. -/
theorem iterate_of_ok {s : Solution} (h : iterate g flows limit = .ok s) {limit' : Nat}
    (hle : s.rounds.length ≤ limit') : iterate g flows limit' = .ok s := by
  induction limit generalizing flows limit' s with
  | zero => cases h
  | succ limit ih =>
      cases hround : round g flows with
      | error e =>
          rw [iterate, hround] at h
          cases h
      | ok st =>
          cases hc : st.changed with
          | false =>
              obtain rfl := Except.ok.inj ((iterate_of_quiet hround hc limit).symm.trans h)
              cases limit' with
              | zero => cases hle
              | succ limit' => exact iterate_of_quiet hround hc limit'
          | true =>
              rw [iterate_of_changed hround hc] at h
              cases hlater : iterate g st.flows limit with
              | error e =>
                  rw [hlater] at h
                  cases h
              | ok later =>
                  rw [hlater] at h
                  obtain rfl := Except.ok.inj h
                  cases limit' with
                  | zero => cases hle
                  | succ limit' =>
                      rw [iterate_of_changed hround hc, ih hlater (Nat.le_of_succ_le_succ hle)]
                      rfl

/-- A round that changes something leaves fewer entries to come, so if the limit is large enough
the last round is quiet. -/
theorem Underway.iterate (hg : g.Closed) (h : Underway g flows)
    (hlimit : g.pairs.card < limit + (facts flows).entries.ncard) :
    ∃ s, iterate g flows limit = .ok s ∧ Underway g s.flows ∧ g.Solves (facts s.flows) ∧
      s.rounds.length + (facts flows).entries.ncard ≤ 1 + g.pairs.card := by
  have hbelow := Facts.ncard_entries_le (h.below _ (Facts.closes_everywhere g))
  induction limit generalizing flows with
  | zero => omega
  | succ limit ih =>
      obtain ⟨st, hround, hst, hquiet, hgrows⟩ := h.round hg
      cases hc : st.changed with
      | false =>
          refine ⟨_, iterate_of_quiet hround hc limit, hst, hquiet hc, ?_⟩
          rw [List.length_singleton]
          omega
      | true =>
          have hlt := hgrows hc
          obtain ⟨s, hs, hlast, hsolves, hrounds⟩ :=
            ih hst (by omega) (Facts.ncard_entries_le (hst.below _ (Facts.closes_everywhere g)))
          rw [iterate_of_changed hround hc, hs]
          refine ⟨_, rfl, hlast, hsolves, ?_⟩
          rw [List.length_cons]
          omega

end iterate

theorem card_pairs_lt_roundLimit (g : Graph) : g.pairs.card < roundLimit g := by
  have huses : (g.flatMap Block.uses).toFinset = g.usedVariables.toFinset := by
    ext n
    rw [Graph.usedVariables, List.mem_toFinset, List.mem_toFinset, List.mem_eraseDups]
  rw [roundLimit, g.card_pairs, huses, Nat.lt_one_add_iff]
  exact Nat.mul_le_mul_left _ (List.toFinset_card_le _)

/-- For every closed graph the rounds end, no call in them fails, and what they leave is the least
solution of the equations. There is at most one round more than there are pairs of a block and a
used variable. -/
theorem solve_isLeast {g : Graph} (hg : g.Closed) :
    ∃ s, solve g = .ok s ∧ (∀ limit, s.rounds.length ≤ limit → iterate g (start g) limit = .ok s) ∧
      s.rounds.length ≤ 1 + g.length * (g.flatMap Block.uses).toFinset.card ∧
      s.flows.length = g.length ∧ IsLeast {f | g.Solves f} (facts s.flows) := by
  have hlimit := card_pairs_lt_roundLimit g
  obtain ⟨s, hs, hlast, hsolves, hrounds⟩ :=
    (Underway.start g).iterate hg (Nat.lt_add_right _ hlimit)
  refine ⟨s, hs, fun limit hle => iterate_of_ok hs hle, ?_, hlast.length, hsolves, fun f hf =>
    hlast.below f (Graph.Solves.closes hf)⟩
  rw [← g.card_pairs]
  omega

/-- The sample has three blocks that use three variables, so it takes at most ten rounds. -/
theorem solve_isLeast_sample :
    sample.Closed ∧ ∃ s, solve sample = .ok s ∧ s.rounds.length ≤ 10 ∧ s.flows.length = 3 ∧
      IsLeast {f | sample.Solves f} (facts s.flows) := by
  have hclosed : sample.Closed := by simp [Graph.Closed, sample]
  have hcard : 1 + sample.length * (sample.flatMap Block.uses).toFinset.card = 10 := by decide
  obtain ⟨s, hs, -, hrounds, hlength, hleast⟩ := solve_isLeast hclosed
  exact ⟨hclosed, s, hs, hcard ▸ hrounds, hlength, hleast⟩

end PackedSet.Liveness
