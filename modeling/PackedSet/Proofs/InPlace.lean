import PackedSet.Proofs.Refinement

/-!
# Set operations in place

`merge` and `meet` work on the set itself; `union` and `inter` store a result, which may be that of
the set and another one. In place or not, the outcome is the same: the same refusal or the same
words, and the same events. The flag of an operation in place tells whether its result differs from
the set before it.
-/

namespace PackedSet.BitSet

variable (d s : BitSet)

/-- The words of a set never ask for more room than it has. -/
theorem ensure_max_extent (required : Nat) :
    d.ensure (max d.extent required) = d.ensure required := by
  have hd := d.extent_le_wordCount
  by_cases h : required ≤ d.wordCount
  · rw [d.ensure_of_le h, d.ensure_of_le (Nat.max_le.2 ⟨hd, h⟩)]
  · rw [Nat.max_eq_right (by omega)]

theorem commonExtent_self_le : commonExtent d s ≤ d.wordCount := by
  refine commonExtent_le_iff.2 fun i hi => ?_
  rw [d.wordAt_of_wordCount_le hi]
  exact UInt32.zero_and

/-- New words differ from the old ones exactly if a member differs from what it was in a set with
the members of the old words. -/
theorem bne_words_overwrite {s d : BitSet} (h : ∀ n, s.contains n = d.contains n)
    (f : Nat → Word) : ((s.overwrite f).words != s.words) = (s.overwrite f).differs d := by
  have hwords : (s.overwrite f).words = s.words ↔ (s.overwrite f).differs d = false := by
    rw [words_overwrite_eq_iff, differs_eq_false_iff]
    exact forall_congr' fun n => by rw [h]
  rw [Bool.eq_iff_iff, bne_iff_ne, ne_eq, hwords, Bool.not_eq_false]

/-- Both unions are refused, or both leave the same set and report the same events. -/
theorem merge_eq_of_fits (h : d.Fits s.extent) :
    let result := d.union d s
    d.merge s = ⟨.ok (result.set.differs d), result.set, result.events⟩ ∧
      result.result = .ok () := by
  intro result
  have hresult : result = (d.ensure s.extent).andThen fun t =>
      .done (t.overwrite fun i => d.wordAt i ||| s.wordAt i) := by
    rw [← ensure_max_extent]
    rfl
  have hmerged : (fun i => (d.ensure s.extent).set.wordAt i ||| s.wordAt i) =
      fun i => d.wordAt i ||| s.wordAt i := by
    funext i
    rw [wordAt_ensure]
  rw [hresult, merge, d.ensure_andThen_of_fits _ h, d.ensure_andThen_of_fits _ h]
  simp only [hmerged, bne_words_overwrite (d.contains_ensure s.extent)]
  exact ⟨rfl, rfl⟩

theorem union_self_of_not_fits (h : ¬ d.Fits s.extent) : d.union d s =
    ⟨.error ⟨s.extent, d.wordCount⟩, d, [.refused ⟨s.extent, d.wordCount⟩]⟩ := by
  rw [union, ensure_max_extent, d.ensure_andThen_of_not_fits _ h]

theorem inter_self : d.inter d s = ⟨.ok (), (d.meet s).set, []⟩ := by
  rw [inter, d.ensure_of_le (d.commonExtent_self_le s), Outcome.done_andThen]
  rfl

theorem result_meet : (d.meet s).result = (d.meet s).set.differs d :=
  bne_words_overwrite (fun _ => rfl) _

/-- In place or with a copy of the set as an operand: a union is refused with the same numbers or
leaves the same set with the same events, and an intersection leaves the same set, without growth
and without a refusal. The flags tell whether the set differs from what it was. -/
theorem in_place_agrees :
    ((∃ mismatch, d.merge s = ⟨.error mismatch, d, [.refused mismatch]⟩ ∧
        d.union d s = ⟨.error mismatch, d, [.refused mismatch]⟩) ∨
      ∃ changed t events, d.merge s = ⟨.ok changed, t, events⟩ ∧
        d.union d s = ⟨.ok (), t, events⟩ ∧ (changed = true ↔ t.differs d = true)) ∧
    ∃ changed t, d.meet s = ⟨changed, t, []⟩ ∧ d.inter d s = ⟨.ok (), t, []⟩ ∧
      t.wordCount = d.wordCount ∧ (changed = true ↔ t.differs d = true) := by
  constructor
  · by_cases h : d.Fits s.extent
    · obtain ⟨hmerge, hok⟩ := d.merge_eq_of_fits s h
      refine Or.inr ⟨_, _, _, hmerge, ?_, Iff.rfl⟩
      rw [← hok]
    · exact Or.inl ⟨_, d.merge_of_not_fits h, d.union_self_of_not_fits s h⟩
  · refine ⟨(d.meet s).result, (d.meet s).set, rfl, d.inter_self s, d.wordCount_meet s, ?_⟩
    rw [d.result_meet s]

end PackedSet.BitSet
