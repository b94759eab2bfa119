import PackedSet.Proofs.Refinement
import PackedSet.Proofs.Cursor.Ahead
import Mathlib.Data.Finset.Lattice.Basic
import Mathlib.Tactic.TFAE

/-!
# The lattice of sets

Up to equality of members, union and intersection are the operations of a distributive lattice with
a least element, whatever the capacities of the operands are and whichever growable sets hold the
results. Its order is read off in five ways: by the flags of the operations in place, by the
results of the stored ones, and by walking over the members.
-/

namespace PackedSet.BitSet

/-- A set that may grow, as the destination of a result. -/
abbrev Destination := {d : BitSet // d.growable = true}

def join (d : Destination) (a b : BitSet) : BitSet := (d.val.union a b).set

def common (d : Destination) (a b : BitSet) : BitSet := (d.val.inter a b).set

/-- The laws of a distributive lattice with a least element for two operations that store their
results in destinations. Results are compared by their members, and every occurrence of an
operation has a destination of its own. -/
structure DistributiveLaws (join common : Destination → BitSet → BitSet → BitSet) : Prop where
  join_comm : ∀ d e a b, (join d a b).sameMembers (join e b a) = true
  common_comm : ∀ d e a b, (common d a b).sameMembers (common e b a) = true
  join_assoc : ∀ d e f g a b c,
    (join d (join e a b) c).sameMembers (join f a (join g b c)) = true
  common_assoc : ∀ d e f g a b c,
    (common d (common e a b) c).sameMembers (common f a (common g b c)) = true
  join_self : ∀ d a, (join d a a).sameMembers a = true
  common_self : ∀ d a, (common d a a).sameMembers a = true
  join_common : ∀ d e a b, (join d a (common e a b)).sameMembers a = true
  common_join : ∀ d e a b, (common d a (join e a b)).sameMembers a = true
  common_distrib : ∀ d e f g h a b c, (common d a (join e b c)).sameMembers
    (join f (common g a b) (common h a c)) = true
  join_distrib : ∀ d e f g h a b c, (join d a (common e b c)).sameMembers
    (common f (join g a b) (join h a c)) = true
  join_empty : ∀ d a z, z.isEmpty = true → (join d a z).sameMembers a = true
  common_empty : ∀ d a z, z.isEmpty = true → (common d a z).sameMembers z = true

theorem sameMembers_iff_members {a b : BitSet} :
    a.sameMembers b = true ↔ a.plain.members = b.plain.members := by
  rw [sameMembers_iff, Finset.ext_iff]
  exact forall_congr' fun n => by rw [mem_plain, mem_plain, Bool.eq_iff_iff]

theorem members_of_isEmpty {z : BitSet} (h : z.isEmpty = true) : z.plain.members = ∅ := by
  refine Finset.eq_empty_of_forall_notMem fun n hn => ?_
  rw [mem_plain, z.isEmpty_iff.1 h] at hn
  cases hn

section destination

variable (d : Destination) (a b : BitSet)

theorem result_join : (d.val.union a b).result = .ok () := d.val.result_union (Or.inr d.property)

theorem result_common : (d.val.inter a b).result = .ok () := d.val.result_inter (Or.inr d.property)

theorem members_join : (join d a b).plain.members = a.plain.members ∪ b.plain.members := by
  ext n
  rw [mem_plain, join, d.val.contains_union (result_join d a b), Finset.mem_union, mem_plain,
    mem_plain, Bool.or_eq_true]

theorem members_common : (common d a b).plain.members = a.plain.members ∩ b.plain.members := by
  ext n
  rw [mem_plain, common, d.val.contains_inter (result_common d a b), Finset.mem_inter, mem_plain,
    mem_plain, Bool.and_eq_true]

end destination

theorem distributiveLaws : DistributiveLaws join common := by
  constructor <;> intros <;> rw [sameMembers_iff_members] <;>
    simp only [members_join, members_common]
  case join_comm => exact Finset.union_comm _ _
  case common_comm => exact Finset.inter_comm _ _
  case join_assoc => exact Finset.union_assoc _ _ _
  case common_assoc => exact Finset.inter_assoc _ _ _
  case join_self => exact Finset.union_self _
  case common_self => exact Finset.inter_self _
  case join_common => exact sup_inf_self
  case common_join => exact inf_sup_self
  case common_distrib => exact Finset.inter_union_distrib_left _ _ _
  case join_distrib => exact Finset.union_inter_distrib_left _ _ _
  case join_empty hz => rw [members_of_isEmpty hz, Finset.union_empty]
  case common_empty hz => rw [members_of_isEmpty hz, Finset.inter_empty]

theorem size_eq_card (s : BitSet) : s.size = s.plain.members.card := by
  rw [size_eq_length_toList, ← List.toFinset_card_of_nodup s.nodup_toList]
  congr 1
  ext n
  rw [List.mem_toFinset, mem_toList, mem_plain, mem_iff]

theorem result_meet_eq_false_iff (s d : BitSet) :
    (s.meet d).result = false ↔ s.plain.members ⊆ d.plain.members := by
  have hflag : (s.meet d).result = decide (¬ s.plain.members ⊆ d.plain.members) :=
    congrArg Prod.fst (s.plain_meet d)
  rw [hflag, decide_eq_false_iff_not, not_not]

theorem forall_mem_rest_iff (s d : BitSet) :
    (∀ n ∈ s.cursor.rest.1, d.contains n = true) ↔ s.plain.members ⊆ d.plain.members := by
  rw [Cursor.rest_cursor, Finset.subset_iff]
  refine forall_congr' fun n => ?_
  rw [mem_toList, mem_iff, mem_plain, mem_plain]

/-- Five ways to see that the members of `s` are members of `d`. -/
theorem order_tfae (d s : BitSet) (g e f : Destination) (hg : g.val.sameMembers d = true) :
    [(g.val.merge s).result = .ok false, (join e d s).sameMembers d = true,
      (common f d s).sameMembers s = true, (s.meet d).result = false,
      ∀ n ∈ s.cursor.rest.1, d.contains n = true].TFAE := by
  rw [sameMembers_iff_members] at hg
  rw [g.val.result_merge (Or.inr g.property), hg, Except.ok.injEq, decide_eq_false_iff_not, not_not,
    sameMembers_iff_members, sameMembers_iff_members, members_join, members_common,
    result_meet_eq_false_iff, forall_mem_rest_iff]
  tfae_have 1 ↔ 2 := Finset.union_eq_left.symm
  tfae_have 1 ↔ 3 := Finset.inter_eq_right.symm
  tfae_have 1 ↔ 4 := Iff.rfl
  tfae_have 1 ↔ 5 := Iff.rfl
  tfae_finish

/-- Results that may grow are never refused and obey the laws of a distributive lattice. Merging
into a growable copy without a change, the union and the intersection with the larger set, taking
out nothing in place, and a walk over the members all tell the same order. A union and an
intersection have together as many members as their operands. -/
theorem lattice_of_sets :
    (∀ (d : Destination) (a b : BitSet),
      (d.val.union a b).result = .ok () ∧ (d.val.inter a b).result = .ok ()) ∧
    DistributiveLaws join common ∧
    (∀ (d s : BitSet) (g e f : Destination), g.val.sameMembers d = true →
      [(g.val.merge s).result = .ok false, (join e d s).sameMembers d = true,
        (common f d s).sameMembers s = true, (s.meet d).result = false,
        ∀ n ∈ s.cursor.rest.1, d.contains n = true].TFAE) ∧
    ∀ (d e : Destination) (a b : BitSet),
      (join d a b).size + (common e a b).size = a.size + b.size := by
  refine ⟨fun d a b => ⟨result_join d a b, result_common d a b⟩, distributiveLaws, order_tfae,
    fun d e a b => ?_⟩
  rw [size_eq_card, size_eq_card, size_eq_card, size_eq_card, members_join, members_common]
  exact Finset.card_union_add_card_inter _ _

/-- A merge of what a longer copy already holds. -/
theorem lattice_of_sets_longer :
    let d : BitSet := ⟨#[5, 0, 7], false⟩
    let s : BitSet := ⟨#[4], false⟩
    let g : Destination := ⟨⟨#[5, 0, 7, 0], true⟩, rfl⟩
    let e : Destination := ⟨expandable 0, rfl⟩
    g.val.sameMembers d = true ∧ (g.val.merge s).result = .ok false ∧
      (join e d s).sameMembers d = true ∧ (common e d s).sameMembers s = true ∧
      (s.meet d).result = false ∧ ∀ n ∈ s.cursor.rest.1, d.contains n = true := by
  intro d s g e
  have hg : g.val.sameMembers d = true := by decide
  have hsame := lattice_of_sets.2.2.1 d s g e e hg
  have hmerge : (g.val.merge s).result = .ok false := by decide
  exact ⟨hg, hmerge, (hsame.out 0 1).1 hmerge, (hsame.out 0 2).1 hmerge, (hsame.out 0 3).1 hmerge,
    (hsame.out 0 4).1 hmerge⟩

end PackedSet.BitSet
