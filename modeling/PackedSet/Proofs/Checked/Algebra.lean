import PackedSet.Proofs.Checked.Update

/-!
# Checked operations on whole sets

Results are stored word by word. The intersection reads the words of both operands that are in
front of their common length by index, and it finds the last of them that meet by a search from the
back; the other operations go over words without an index.
-/

namespace PackedSet.Checked

variable {memory : Memory} {s : BitSet}

theorem mapM_eq_ok {α β : Type} {f : α → Checked β} {g : α → β} (items : List α)
    (h : ∀ a ∈ items, f a = .ok (g a)) : items.mapM f = .ok (items.map g) := by
  induction items with
  | nil => rfl
  | cons a rest ih =>
      rw [List.mapM_cons, h a List.mem_cons_self, ok_bind,
        ih fun b hb => h b (List.mem_cons_of_mem a hb)]
      rfl

def overwrite (s : BitSet) (f : Nat → Checked Word) : Checked BitSet := do
  let words ← (List.range s.wordCount).mapM f
  return { s with words := words.toArray }

theorem overwrite_eq {f : Nat → Checked Word} {g : Nat → Word} (h : ∀ i, f i = .ok (g i)) :
    overwrite s f = .ok (s.overwrite g) := by
  have hwords : ((List.range s.wordCount).map g).toArray = s.words.mapIdx fun i _ => g i := by
    refine Array.ext (by simp [BitSet.wordCount]) fun i _ _ => ?_
    simp
  rw [overwrite, mapM_eq_ok _ fun i _ => h i, ok_bind, hwords]
  rfl

theorem wordAt_extract {stop i : Nat} (h : i < stop) :
    (s.words.extract 0 stop).getD i 0 = s.wordAt i := by
  simp only [BitSet.wordAt, Array.getD_eq_getD_getElem?, Array.getElem?_extract]
  split
  · rw [Nat.zero_add]
  · have hi : s.words.size ≤ i := by omega
    rw [Array.getElem?_eq_none hi]

theorem readAt_extract {stop i : Nat} (h : i < stop) (hstop : stop ≤ s.wordCount) :
    readAt (s.words.extract 0 stop) i = .ok (s.wordAt i) := by
  have hi : i < (s.words.extract 0 stop).size := by
    have hsize : stop ≤ s.words.size := hstop
    rw [Array.size_extract]
    omega
  rw [readAt, require_of hi, ok_bind, wordAt_extract h]
  rfl

theorem sliceTo_eq {stop : Nat} (h : stop ≤ s.wordCount) :
    sliceTo s.words stop = .ok (s.words.extract 0 stop) := by
  rw [sliceTo, require_of (show stop ≤ s.words.size from h)]
  rfl

def lastIndex? (n : Nat) (f : Nat → Word) : Option Nat :=
  (List.range n).reverse.find? fun i => f i != 0

def lengthTo (last? : Option Nat) : Checked Nat :=
  match last? with
  | some i => add i 1
  | none => return 0

theorem lengthTo_lastIndex? {f g : Nat → Word} {n : Nat} (hfg : ∀ i, i < n → f i = g i)
    (hn : n < numberLimit) : lengthTo (lastIndex? n f) = .ok (BitSet.reach g n) := by
  induction n with
  | zero => rfl
  | succ n ih =>
      rw [lastIndex?, List.range_succ, List.reverse_append, List.reverse_singleton,
        List.singleton_append, List.find?_cons, hfg n (Nat.lt_succ_self n), BitSet.reach]
      by_cases hz : g n = 0
      · rw [if_pos hz, hz, bne_self_eq_false]
        exact ih (fun i hi => hfg i (Nat.lt_succ_of_lt hi)) (Nat.lt_of_succ_lt hn)
      · rw [if_neg hz, bne_iff_ne.2 hz]
        exact add_eq hn

def ensure (memory : Memory) (s : BitSet) (required : Nat) :
    Checked (Outcome (Except SizeMismatch Unit)) :=
  if required ≤ s.wordCount then return .done s
  else if s.growable then do
    let grown ← grow memory s required
    return grown.map .ok
  else
    let mismatch : SizeMismatch := ⟨required, s.wordCount⟩
    return ⟨.error mismatch, s, [.refused mismatch]⟩

theorem runs_ensure (hs : memory.Holds s) {required : Nat}
    (hr : Word.width * required ≤ numberLimit) :
    RunsTo memory (ensure memory s required) (s.ensure required) := by
  by_cases h : required ≤ s.wordCount
  · rw [ensure, if_pos h, s.ensure_of_le h]
    exact Runs.of_ok hs _
  · have hlt := Nat.not_le.1 h
    rw [ensure, if_neg h]
    cases hg : s.growable with
    | true =>
        rw [if_pos rfl, s.ensure_of_growable hlt hg]
        exact Runs.andThen_ok (runs_grow hlt hr) fun _ => rfl
    | false =>
        rw [if_neg Bool.false_ne_true, s.ensure_of_fixed hlt hg]
        exact Runs.of_ok hs _

/-- A result for which there is room is stored without taking more memory. -/
theorem runs_ensure_andThen {α : Type} {next : BitSet → Checked (Outcome (Except SizeMismatch α))}
    {plain : BitSet → Outcome (Except SizeMismatch α)} (hnext : ∀ t, next t = .ok (plain t))
    (hcount : ∀ t, (plain t).set.wordCount = t.wordCount) (hs : memory.Holds s) {required : Nat}
    (hr : Word.width * required ≤ numberLimit) :
    RunsTo memory (ensure memory s required >>= fun ensured => andThen ensured next)
      ((s.ensure required).andThen plain) := by
  refine (runs_ensure hs hr).bind ?_ fun hfit => runs_andThen hfit ?_
  · exact wordCount_le_andThen _ fun t => (hcount t).ge
  · rw [hnext]
    exact Runs.of_ok ((hcount _).trans_le hfit) _

/-- The word of an intersection at an index, where both operands have `common` words at least. -/
def commonWord (front back : Array Word) (common i : Nat) : Checked Word :=
  if i < common then do
    let x ← readAt front i
    let y ← readAt back i
    return x &&& y
  else return 0

def inter (memory : Memory) (s a b : BitSet) : Checked (Outcome (Except SizeMismatch Unit)) := do
  let common := min a.wordCount b.wordCount
  let front ← sliceTo a.words common
  let back ← sliceTo b.words common
  let required ← lengthTo (lastIndex? common fun i => front.getD i 0 &&& back.getD i 0)
  let ensured ← ensure memory s required
  andThen ensured fun t => do
    let stored ← overwrite t (commonWord front back common)
    return .done stored

section operands

variable {a b : BitSet}

theorem commonWord_eq {common : Nat} (h : common = min a.wordCount b.wordCount) (i : Nat) :
    commonWord (a.words.extract 0 common) (b.words.extract 0 common) common i =
      .ok (a.wordAt i &&& b.wordAt i) := by
  rw [commonWord]
  by_cases hi : i < common
  · rw [if_pos hi, readAt_extract hi (h ▸ Nat.min_le_left _ _), ok_bind,
      readAt_extract hi (h ▸ Nat.min_le_right _ _)]
    rfl
  · have hzero : a.wordAt i &&& b.wordAt i = 0 :=
      BitSet.commonExtent_le_iff.1 (BitSet.reach_le _ _) i (h ▸ Nat.not_lt.1 hi)
    rw [if_neg hi, hzero]
    rfl

theorem runs_inter (hs : memory.Holds s) (ha : memory.Holds a) :
    RunsTo memory (inter memory s a b) (s.inter a b) := by
  have hleft : min a.wordCount b.wordCount ≤ a.wordCount := Nat.min_le_left _ _
  have hwidth : Word.width * min a.wordCount b.wordCount < numberLimit :=
    (Nat.mul_le_mul_left _ (hleft.trans ha)).trans_lt memory.addressable
  have hlt : min a.wordCount b.wordCount < numberLimit := by
    simp only [Word.width] at hwidth
    omega
  have hextent : BitSet.commonExtent a b ≤ memory.words :=
    (BitSet.reach_le _ _).trans (hleft.trans ha)
  have hmeet : ∀ i, i < min a.wordCount b.wordCount →
      ((a.words.extract 0 (min a.wordCount b.wordCount)).getD i 0 &&&
        (b.words.extract 0 (min a.wordCount b.wordCount)).getD i 0) =
      (a.wordAt i &&& b.wordAt i) := fun i hi => by rw [wordAt_extract hi, wordAt_extract hi]
  rw [inter, sliceTo_eq hleft, ok_bind, sliceTo_eq (Nat.min_le_right _ _), ok_bind,
    lengthTo_lastIndex? hmeet hlt, ok_bind]
  refine runs_ensure_andThen (fun t => ?_) (fun t => t.wordCount_overwrite _) hs
    (memory.width_mul_le hextent)
  rw [overwrite_eq (commonWord_eq rfl)]
  rfl

def union (memory : Memory) (s a b : BitSet) : Checked (Outcome (Except SizeMismatch Unit)) := do
  let ensured ← ensure memory s (max a.extent b.extent)
  andThen ensured fun t => return .done (t.overwrite fun i => a.wordAt i ||| b.wordAt i)

theorem runs_union (hs : memory.Holds s) (ha : memory.Holds a) (hb : memory.Holds b) :
    RunsTo memory (union memory s a b) (s.union a b) := by
  have hmax : max a.extent b.extent ≤ memory.words :=
    Nat.max_le.2 ⟨a.extent_le_wordCount.trans ha, b.extent_le_wordCount.trans hb⟩
  exact runs_ensure_andThen (fun _ => rfl) (fun t => t.wordCount_overwrite _) hs
    (memory.width_mul_le hmax)

end operands

def merge (memory : Memory) (s src : BitSet) : Checked (Outcome (Except SizeMismatch Bool)) := do
  let ensured ← ensure memory s src.extent
  andThen ensured fun t =>
    let merged := t.overwrite fun i => t.wordAt i ||| src.wordAt i
    return ⟨.ok (merged.words != t.words), merged, []⟩

theorem runs_merge (hs : memory.Holds s) {src : BitSet} (hsrc : memory.Holds src) :
    RunsTo memory (merge memory s src) (s.merge src) :=
  runs_ensure_andThen (fun _ => rfl) (fun t => t.wordCount_overwrite _) hs
    (memory.width_mul_le (src.extent_le_wordCount.trans hsrc))

def copyFrom (s src : BitSet) : Checked (Outcome (Except Fault Unit)) :=
  if s.wordCount = src.wordCount then do
    require (s.wordCount = src.wordCount) (.lengths s.wordCount src.wordCount)
    return .done { s with words := src.words }
  else return s.misuse (.sizesDiffer s.wordCount src.wordCount)

theorem copyFrom_eq (s src : BitSet) : copyFrom s src = .ok (s.copyFrom src) := by
  rw [copyFrom, BitSet.copyFrom]
  by_cases h : s.wordCount = src.wordCount
  · rw [if_pos h, if_pos h, require_of h]
    rfl
  · rw [if_neg h, if_neg h]
    rfl

def size (s : BitSet) : Checked Nat := total s.words.toList

theorem size_eq (hs : memory.Holds s) : size s = .ok s.size := by
  have hlength : Word.width * s.words.toList.length < numberLimit := hs.capacity_lt
  rw [size, total_eq hlength, BitSet.size, Array.foldl_toList]

end PackedSet.Checked
