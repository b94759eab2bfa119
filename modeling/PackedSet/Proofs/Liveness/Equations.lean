import PackedSet.Liveness.Graph
import Mathlib.Data.Set.Card
import Mathlib.Data.Set.Lattice
import Mathlib.Order.Bounds.Basic

/-!
# The equations of liveness

What is live out of a block is live into one of its successors. What is live into it is used in it,
or is live out of it and not defined in it. `Facts.visit` adds to the facts about one block what
the equations ask for. Visits only add, they stay below all facts that contain what the equations
ask for, and they keep facts that contain nothing else. A pass over the blocks that adds nothing to
what is live into any of them ends in a solution.
-/

namespace PackedSet.Liveness

/-- For each block, the variables that are live into it and those that are live out of it. -/
@[ext] structure Facts where
  into : Nat → Set Nat
  out : Nat → Set Nat

instance : PartialOrder Facts where
  le f f' := (∀ i, f.into i ⊆ f'.into i) ∧ ∀ i, f.out i ⊆ f'.out i
  le_refl _ := ⟨fun _ => subset_rfl, fun _ => subset_rfl⟩
  le_trans _ _ _ h h' := ⟨fun i => (h.1 i).trans (h'.1 i), fun i => (h.2 i).trans (h'.2 i)⟩
  le_antisymm _ _ h h' := Facts.ext (funext fun i => (h.1 i).antisymm (h'.1 i))
    (funext fun i => (h.2 i).antisymm (h'.2 i))

/-- Between facts with the same variables live into the blocks there are no others. -/
theorem Facts.into_eq_iff {f f' f'' : Facts} (h : f ≤ f') (h' : f' ≤ f'') :
    f''.into = f.into ↔ f'.into = f.into ∧ f''.into = f'.into := by
  have hfirst : f.into ≤ f'.into := h.1
  have hsecond : f'.into ≤ f''.into := h'.1
  constructor
  · intro heq
    exact ⟨le_antisymm (hsecond.trans heq.le) hfirst, le_antisymm (heq.le.trans hfirst) hsecond⟩
  · rintro ⟨heq, heq'⟩
    exact heq'.trans heq

namespace Block

variable (b : Block)

def ahead (into : Nat → Set Nat) : Set Nat := ⋃ j ∈ b.successors, into j

def before (out : Set Nat) : Set Nat := {n | n ∈ b.uses} ∪ (out \ {n | n ∈ b.defs})

theorem ahead_mono {into into' : Nat → Set Nat} (h : into ≤ into') : b.ahead into ⊆ b.ahead into' :=
  Set.iUnion₂_mono fun j _ => h j

theorem before_mono {out out' : Set Nat} (h : out ⊆ out') : b.before out ⊆ b.before out' :=
  Set.union_subset_union_right _ (Set.sdiff_subset_sdiff_left h)

end Block

namespace Graph

variable (g : Graph)

def Solves (f : Facts) : Prop :=
  ∀ i b, g[i]? = some b → f.out i = b.ahead f.into ∧ f.into i = b.before (f.out i)

def ClosedAt (f : Facts) (i : Nat) : Prop :=
  ∀ b, g[i]? = some b → b.ahead f.into ⊆ f.out i ∧ b.before (f.out i) ⊆ f.into i

/-- The facts contain everything that the equations ask for. -/
def Closes (f : Facts) : Prop := ∀ i, g.ClosedAt f i

/-- The facts contain nothing that the equations do not ask for. -/
def Supports (f : Facts) : Prop :=
  ∀ i b, g[i]? = some b → f.out i ⊆ b.ahead f.into ∧ f.into i ⊆ b.before (f.out i)

variable {g} {f f' : Facts}

theorem Solves.closes (h : g.Solves f) : g.Closes f := fun i b hb =>
  ⟨(h i b hb).1.ge, (h i b hb).2.ge⟩

theorem Supports.solves (h : g.Supports f) (hclosed : ∀ i < g.length, g.ClosedAt f i) :
    g.Solves f := fun i b hb =>
  have hc := hclosed i (List.getElem?_eq_some_iff.1 hb).1 b hb
  ⟨(h i b hb).1.antisymm hc.1, (h i b hb).2.antisymm hc.2⟩

end Graph

def Facts.visit (f : Facts) (i : Nat) (b : Block) : Facts :=
  let out := f.out i ∪ b.ahead f.into
  { into := Function.update f.into i (f.into i ∪ b.before out)
    out := Function.update f.out i out }

section visit

variable {g : Graph} {f f' : Facts} {i : Nat} {b : Block}

theorem Facts.le_visit : f ≤ f.visit i b :=
  ⟨le_update_self_iff.2 Set.subset_union_left,
    le_update_self_iff.2 Set.subset_union_left⟩

theorem Facts.visit_into_eq_iff :
    (f.visit i b).into = f.into ↔ b.before (f.out i ∪ b.ahead f.into) ⊆ f.into i :=
  Function.update_eq_self_iff.trans Set.union_eq_left

/-- The facts stay below all facts that contain what the equations ask for. -/
theorem Facts.visit_le (hb : g[i]? = some b) (hle : f ≤ f') (h : g.ClosedAt f' i) :
    f.visit i b ≤ f' := by
  have hout : f.out i ∪ b.ahead f.into ⊆ f'.out i :=
    Set.union_subset (hle.2 i) ((b.ahead_mono hle.1).trans (h b hb).1)
  have hinto : f.into i ∪ b.before (f.out i ∪ b.ahead f.into) ⊆ f'.into i :=
    Set.union_subset (hle.1 i) ((b.before_mono hout).trans (h b hb).2)
  exact ⟨update_le_iff.2 ⟨hinto, fun j _ => hle.1 j⟩,
    update_le_iff.2 ⟨hout, fun j _ => hle.2 j⟩⟩

theorem Graph.Supports.visit (hb : g[i]? = some b) (h : g.Supports f) :
    g.Supports (f.visit i b) := by
  have hle : f ≤ f.visit i b := Facts.le_visit
  intro j c hc
  by_cases hj : j = i
  · subst hj
    obtain rfl : b = c := Option.some.inj (hb.symm.trans hc)
    have hout : (f.visit j b).out j = f.out j ∪ b.ahead f.into := Function.update_self ..
    have hinto : (f.visit j b).into j = f.into j ∪ b.before (f.out j ∪ b.ahead f.into) :=
      Function.update_self ..
    rw [hinto, hout]
    exact ⟨Set.union_subset ((h j b hb).1.trans (b.ahead_mono hle.1)) (b.ahead_mono hle.1),
      Set.union_subset ((h j b hb).2.trans (b.before_mono Set.subset_union_left)) subset_rfl⟩
  · have hout : (f.visit i b).out j = f.out j := Function.update_of_ne hj ..
    have hinto : (f.visit i b).into j = f.into j := Function.update_of_ne hj ..
    rw [hinto, hout]
    exact ⟨(h j c hc).1.trans (c.ahead_mono hle.1), (h j c hc).2⟩

/-- A visit that adds nothing to what is live into the block leaves it closed, and keeps the
blocks closed that were. -/
theorem Graph.closedAt_visit (hb : g[i]? = some b) (hquiet : (f.visit i b).into = f.into)
    {j : Nat} (h : j = i ∨ g.ClosedAt f j) : g.ClosedAt (f.visit i b) j := by
  intro c hc
  by_cases hj : j = i
  · subst hj
    obtain rfl : b = c := Option.some.inj (hb.symm.trans hc)
    have hout : (f.visit j b).out j = f.out j ∪ b.ahead f.into := Function.update_self ..
    have hinto : (f.visit j b).into j = f.into j ∪ b.before (f.out j ∪ b.ahead f.into) :=
      Function.update_self ..
    rw [hinto, hout, hquiet]
    exact ⟨Set.subset_union_right, Set.subset_union_right⟩
  · have hout : (f.visit i b).out j = f.out j := Function.update_of_ne hj ..
    rw [hquiet, hout]
    exact h.resolve_left hj c hc

end visit

namespace Graph

def advance (g : Graph) (f : Facts) (i : Nat) : Facts := (g[i]?).elim f (f.visit i)

section advance

variable {g : Graph} {f f' : Facts}

theorem advance_of_getElem? {i : Nat} {b : Block} (hb : g[i]? = some b) :
    g.advance f i = f.visit i b := by
  rw [advance, hb, Option.elim_some]

theorem advance_of_none {i : Nat} (h : g[i]? = none) : g.advance f i = f := by
  rw [advance, h, Option.elim_none]

theorem le_advance (i : Nat) : f ≤ g.advance f i := by
  cases hb : g[i]? with
  | none => exact (advance_of_none hb).ge
  | some b => exact (advance_of_getElem? hb).symm ▸ Facts.le_visit

theorem le_foldl_advance (indices : List Nat) : f ≤ indices.foldl g.advance f := by
  induction indices generalizing f with
  | nil => exact le_refl f
  | cons i rest ih => exact (le_advance i).trans ih

theorem foldl_advance_le (hle : f ≤ f') (h : g.Closes f') (indices : List Nat) :
    indices.foldl g.advance f ≤ f' := by
  induction indices generalizing f with
  | nil => exact hle
  | cons i rest ih =>
      refine ih ?_
      cases hb : g[i]? with
      | none => rwa [advance_of_none hb]
      | some b =>
          rw [advance_of_getElem? hb]
          exact Facts.visit_le hb hle (h i)

theorem Supports.foldl_advance (h : g.Supports f) (indices : List Nat) :
    g.Supports (indices.foldl g.advance f) := by
  induction indices generalizing f with
  | nil => exact h
  | cons i rest ih =>
      refine ih ?_
      cases hb : g[i]? with
      | none => rwa [advance_of_none hb]
      | some b =>
          rw [advance_of_getElem? hb]
          exact h.visit hb

/-- A run that adds nothing to what is live into any block leaves the blocks closed that it
visited: later visits of the run do not change what the equations ask for. -/
theorem closedAt_foldl_advance {indices : List Nat}
    (hquiet : (indices.foldl g.advance f).into = f.into) {j : Nat}
    (h : j ∈ indices ∨ g.ClosedAt f j) : g.ClosedAt (indices.foldl g.advance f) j := by
  induction indices generalizing f with
  | nil => exact h.resolve_left List.not_mem_nil
  | cons i rest ih =>
      obtain ⟨hfirst, hrest⟩ :=
        (Facts.into_eq_iff (le_advance i) (le_foldl_advance rest)).1 hquiet
      refine ih hrest ?_
      cases hb : g[i]? with
      | none =>
          rw [advance_of_none hb]
          rcases h with h | h
          · rcases List.mem_cons.1 h with rfl | h
            · exact Or.inr fun b hc => absurd (hb.symm.trans hc) nofun
            · exact Or.inl h
          · exact Or.inr h
      | some b =>
          rw [advance_of_getElem? hb] at hfirst ⊢
          rcases h with h | h
          · exact (List.mem_cons.1 h).symm.imp_right fun hj => closedAt_visit hb hfirst (Or.inl hj)
          · exact Or.inr (closedAt_visit hb hfirst (Or.inr h))

end advance

/-- What a round does to the facts: it visits the blocks from the last to the first. -/
def pass (g : Graph) (f : Facts) : Facts := (List.range g.length).reverse.foldl g.advance f

/-- A quiet pass ends in a solution. -/
theorem Supports.solves_pass {g : Graph} {f : Facts} (h : g.Supports f)
    (hquiet : (g.pass f).into = f.into) : g.Solves (g.pass f) :=
  (h.foldl_advance _).solves fun _ hi =>
    closedAt_foldl_advance hquiet (Or.inl (List.mem_reverse.2 (List.mem_range.2 hi)))

end Graph

def Graph.pairs (g : Graph) : Finset (Nat × Nat) :=
  Finset.range g.length ×ˢ (g.flatMap Block.uses).toFinset

theorem Graph.card_pairs (g : Graph) :
    g.pairs.card = g.length * (g.flatMap Block.uses).toFinset.card := by
  rw [pairs, Finset.card_product, Finset.card_range]

namespace Facts

def entries (f : Facts) : Set (Nat × Nat) := {p | p.2 ∈ f.into p.1}

/-- Every used variable is live into every block and out of it. -/
def everywhere (g : Graph) : Facts where
  into i := {n | (i, n) ∈ g.pairs}
  out _ := {n | n ∈ g.flatMap Block.uses}

theorem closes_everywhere (g : Graph) : g.Closes (everywhere g) := by
  intro i b hb
  obtain ⟨hi, hget⟩ := List.getElem?_eq_some_iff.1 hb
  have hpairs : ∀ n ∈ g.flatMap Block.uses, (i, n) ∈ g.pairs := fun n hn =>
    Finset.mem_product.2 ⟨Finset.mem_range.2 hi, List.mem_toFinset.2 hn⟩
  constructor
  · exact Set.iUnion₂_subset fun j _ n hn => List.mem_toFinset.1 (Finset.mem_product.1 hn).2
  · rintro n (hn | hn)
    · exact hpairs n (List.mem_flatMap.2 ⟨b, hget ▸ List.getElem_mem hi, hn⟩)
    · exact hpairs n hn.1

variable {f f' : Facts} {g : Graph}

theorem entries_subset (h : f ≤ everywhere g) : f.entries ⊆ ↑g.pairs := fun p hp => h.1 p.1 hp

theorem ncard_entries_le (h : f ≤ everywhere g) : f.entries.ncard ≤ g.pairs.card :=
  Set.ncard_coe_finset g.pairs ▸ Set.ncard_le_ncard (entries_subset h)

theorem ncard_entries_lt (hbound : f' ≤ everywhere g) (hle : f ≤ f') (hne : f'.into ≠ f.into) :
    f.entries.ncard < f'.entries.ncard := by
  have hfinite : f'.entries.Finite := (Finset.finite_toSet _).subset (entries_subset hbound)
  refine Set.ncard_lt_ncard ⟨fun p hp => hle.1 p.1 hp, fun hback => hne ?_⟩ hfinite
  exact le_antisymm (fun i n hn => hback (a := (i, n)) hn) hle.1

end Facts

end PackedSet.Liveness
