import PackedSet.Proofs.Checked.Basic
import PackedSet.Proofs.Capacity
import PackedSet.Proofs.Failure

/-!
# Checked updates

Positions, growth and allocation with every step tested: the index of each word that is read or
written, the width of each shift, the numbers that are computed, and that a growth makes the set
larger. On a set that the memory holds these computations end as the plain ones do.
-/

namespace PackedSet

def Memory.Holds (memory : Memory) (s : BitSet) : Prop := s.wordCount ≤ memory.words

theorem Memory.Holds.capacity_lt {memory : Memory} {s : BitSet} (h : memory.Holds s) :
    s.capacity < numberLimit :=
  Nat.lt_of_le_of_lt (Nat.mul_le_mul_left Word.width h) memory.addressable

/-- The computation ends with the outcome `o`, and takes the memory that the set of `o` takes. -/
abbrev Checked.RunsTo {α : Type} (memory : Memory) (x : Checked (Outcome α)) (o : Outcome α) :
    Prop := Runs memory o.set.wordCount x o

namespace Checked

variable {memory : Memory} {s : BitSet}

def capacity (s : BitSet) : Checked Nat := mul Word.width s.wordCount

theorem capacity_eq (hs : memory.Holds s) : capacity s = .ok s.capacity := mul_eq hs.capacity_lt

def wordsFor (bits : Nat) : Checked Nat :=
  if bits % Word.width = 0 then return bits / Word.width else add (bits / Word.width) 1

theorem wordsFor_eq {bits : Nat} (h : bits < numberLimit) :
    wordsFor bits = .ok (PackedSet.wordsFor bits) := by
  rw [wordsFor, PackedSet.wordsFor]
  by_cases hrem : bits % Word.width = 0
  · rw [if_pos hrem, pure_eq_ok]
    congr 1
    simp only [Word.width] at *
    omega
  · have hlt : bits / Word.width + 1 < numberLimit := by
      simp only [Word.width, numberLimit] at *
      omega
    rw [if_neg hrem, add_eq hlt]
    congr 1
    simp only [Word.width] at *
    omega

def blank (memory : Memory) (bits : Nat) (growable : Bool) : Checked BitSet := do
  let count ← wordsFor bits
  let words ← zeroed memory count
  return ⟨words, growable⟩

theorem runs_blank {bits : Nat} (h : bits < numberLimit) (growable : Bool) :
    Runs memory (PackedSet.wordsFor bits) (blank memory bits growable)
      (BitSet.blank bits growable) := by
  rw [blank, wordsFor_eq h, ok_bind]
  exact (Runs.zeroed _).andThen_ok fun _ => rfl

def grow (memory : Memory) (s : BitSet) (required : Nat) : Checked (Outcome Unit) := do
  let count ← nextPowerOfTwo required
  require (s.wordCount < count) (.growth s.wordCount count)
  let fresh ← zeroed memory count
  let words ← copyFront fresh s.words
  return ⟨(), { s with words }, [.grew s.wordCount count]⟩

theorem copyFront_zeroed {words : Array Word} {count : Nat} (h : words.size ≤ count) :
    copyFront (Array.replicate count 0) words = .ok (words.rightpad count 0) := by
  have hfront : ((Array.replicate count (0 : Word)).extract 0 words.size).size = words.size := by
    rw [Array.size_extract, Array.size_replicate]
    omega
  have hback : (Array.replicate count (0 : Word)).extract words.size count =
      Array.replicate (count - words.size) 0 := by
    rw [Array.extract_replicate, Nat.min_self]
  rw [copyFront, sliceTo, Array.size_replicate, require_of h, ok_bind, pure_eq_ok, ok_bind,
    require_of hfront, ok_bind, pure_eq_ok, hback, Array.rightpad]

/-- Growth is asked for when there are too few words, so there are more of them afterwards. -/
theorem runs_grow {required : Nat} (h : s.wordCount < required)
    (hr : Word.width * required ≤ numberLimit) :
    RunsTo memory (grow memory s required) (s.grow required) := by
  have hgrowth : s.wordCount < leastPowerOfTwo required :=
    Nat.lt_of_lt_of_le h (le_leastPowerOfTwo required)
  rw [RunsTo, s.wordCount_grow (Nat.le_of_lt h), grow, nextPowerOfTwo_eq hr, ok_bind,
    require_of hgrowth, ok_bind]
  refine (Runs.zeroed _).andThen_ok fun _ => ?_
  rw [copyFront_zeroed (Nat.le_of_lt hgrowth), ok_bind]
  rfl

def growToCover (memory : Memory) (s : BitSet) (n : Nat) : Checked (Outcome Unit) := do
  require (s.growable = true) .rigid
  let required ← add (wordIndex n) 1
  grow memory s required

theorem width_mul_le_of_lt {n : Nat} (hn : n < numberLimit) :
    Word.width * (wordIndex n + 1) ≤ numberLimit := by
  simp only [wordIndex, Word.width, numberLimit] at *
  omega

theorem runs_growToCover {n : Nat} (hg : s.growable = true) (hn : s.capacity ≤ n)
    (hlt : n < numberLimit) :
    RunsTo memory (growToCover memory s n) (s.grow (wordIndex n + 1)) := by
  have hcount : s.wordCount < wordIndex n + 1 := Nat.lt_succ_of_le (Nat.not_lt.1 fun h =>
    Nat.not_lt.2 hn (wordIndex_lt_iff.1 h))
  have hle := width_mul_le_of_lt hlt
  have hadd : wordIndex n + 1 < numberLimit := by
    simp only [Word.width, numberLimit] at *
    omega
  rw [growToCover, require_of hg, ok_bind, add_eq hadd, ok_bind]
  exact runs_grow hcount hle

theorem readAt_eq {i : Nat} (h : i < s.wordCount) : readAt s.words i = .ok (s.wordAt i) := by
  rw [readAt, require_of (show i < s.words.size from h)]
  rfl

def mark (s : BitSet) (n : Nat) : Checked BitSet := do
  let bit ← single (bitOffset n)
  let words ← modifyAt s.words (wordIndex n) (· ||| bit)
  return { s with words }

theorem modifyAt_eq {i : Nat} (h : i < s.wordCount) (f : Word → Word) :
    modifyAt s.words i f = .ok (s.modifyWord i f).words := by
  rw [modifyAt, require_of (show i < s.words.size from h)]
  rfl

theorem mark_eq {n : Nat} (h : n < s.capacity) : mark s n = .ok (s.mark n) := by
  rw [mark, single_eq (bitOffset_lt n), ok_bind, modifyAt_eq (wordIndex_lt_iff.2 h)]
  rfl

def unmark (s : BitSet) (n : Nat) : Checked BitSet := do
  let bit ← single (bitOffset n)
  let words ← modifyAt s.words (wordIndex n) (· &&& ~~~bit)
  return { s with words }

theorem unmark_eq {n : Nat} (h : n < s.capacity) : unmark s n = .ok (s.unmark n) := by
  rw [unmark, single_eq (bitOffset_lt n), ok_bind, modifyAt_eq (wordIndex_lt_iff.2 h)]
  rfl

def insert (memory : Memory) (s : BitSet) (n : Nat) : Checked (Outcome (Except Fault Unit)) := do
  let bound ← capacity s
  if n < bound then
    let marked ← mark s n
    return .done marked
  else if s.growable then
    let grown ← growToCover memory s n
    let marked ← mark grown.set n
    return ⟨.ok (), marked, grown.events⟩
  else return s.misuse (.outOfRange .insert n bound)

theorem insert_of_lt (hs : memory.Holds s) {n : Nat} (h : n < s.capacity) :
    insert memory s n = .ok (.done (s.mark n)) := by
  rw [insert, capacity_eq hs, ok_bind, if_pos h, mark_eq h]
  rfl

theorem runs_insert (hs : memory.Holds s) {n : Nat} (hn : n < numberLimit) :
    RunsTo memory (insert memory s n) (s.insert n) := by
  by_cases h : n < s.capacity
  · rw [insert_of_lt hs h, s.insert_of_lt h]
    exact Runs.of_ok ((s.wordCount_mark n).trans_le hs) _
  · have hle := Nat.not_lt.1 h
    rw [insert, capacity_eq hs, ok_bind, if_neg h]
    cases hg : s.growable with
    | true =>
        rw [if_pos rfl, s.insert_of_growable hle hg, RunsTo, BitSet.wordCount_mark]
        refine (runs_growToCover hg hle hn).andThen_ok fun _ => ?_
        rw [mark_eq (s.lt_capacity_grow hle)]
        rfl
    | false =>
        rw [if_neg Bool.false_ne_true, s.insert_of_fixed hle hg]
        exact Runs.of_ok hs _

def erase (s : BitSet) (n : Nat) : Checked (Outcome (Except Fault Unit)) := do
  let bound ← capacity s
  if n < bound then
    let cleared ← unmark s n
    return .done cleared
  else return s.misuse (.outOfRange .erase n bound)

theorem erase_eq (hs : memory.Holds s) (n : Nat) : erase s n = .ok (s.erase n) := by
  rw [erase, capacity_eq hs, ok_bind, BitSet.erase]
  by_cases h : n < s.capacity
  · rw [if_pos h, if_pos h, unmark_eq h]
    rfl
  · rw [if_neg h, if_neg h]
    rfl

def fillWords (s : BitSet) (count : Nat) : BitSet :=
  { s with words := s.words.mapIdx fun i w => if i < count then Word.full else w }

def fill (s : BitSet) (n : Nat) : Checked (Outcome (Except Fault Unit)) := do
  let bound ← capacity s
  if bound < n then return s.misuse (.outOfRange .fill n bound)
  else
    require (wordIndex n ≤ s.wordCount) (.range (wordIndex n) s.wordCount)
    let filled := fillWords s (wordIndex n)
    if bitOffset n = 0 then return .done filled
    else
      let mask ← lowMask (bitOffset n)
      let words ← modifyAt filled.words (wordIndex n) (· ||| mask)
      return .done { s with words }

theorem fillWords_of_bitOffset {n : Nat} (h : bitOffset n = 0) :
    fillWords s (wordIndex n) = { s with words := s.words.mapIdx (BitSet.filledWord n) } := by
  have hword : ∀ i w, BitSet.filledWord n i w = if i < wordIndex n then Word.full else w := by
    intro i w
    have hbelow : w ||| Word.below 0 = w := UInt32.or_zero
    rw [BitSet.filledWord, h, hbelow, ite_self]
  rw [fillWords, funext₂ hword]

theorem modify_fillWords (n : Nat) :
    (fillWords s (wordIndex n)).words.modify (wordIndex n) (· ||| Word.below (bitOffset n)) =
      s.words.mapIdx (BitSet.filledWord n) := by
  refine Array.ext (by simp [fillWords]) fun i _ _ => ?_
  rw [Array.getElem_modify, Array.getElem_mapIdx, BitSet.filledWord]
  simp only [fillWords, Array.getElem_mapIdx]
  by_cases hi : wordIndex n = i
  · subst hi
    simp
  · simp [hi, Ne.symm hi]

/-- A partial word is there if the bound is not at the end of one. -/
theorem fill_eq (hs : memory.Holds s) (n : Nat) : fill s n = .ok (s.fill n) := by
  rw [fill, capacity_eq hs, ok_bind]
  by_cases h : s.capacity < n
  · rw [if_pos h, s.fill_of_capacity_lt h]
    rfl
  · have hle := Nat.not_lt.1 h
    have hn := width_mul_wordIndex_add n
    have hfull : wordIndex n ≤ s.wordCount := by
      simp only [BitSet.capacity, Word.width] at *
      omega
    rw [if_neg h, s.fill_of_le hle, require_of hfull, ok_bind]
    by_cases ho : bitOffset n = 0
    · rw [if_pos ho, fillWords_of_bitOffset ho]
      rfl
    · have hpart : wordIndex n < (fillWords s (wordIndex n)).wordCount := by
        rw [BitSet.wordCount, fillWords, Array.size_mapIdx]
        simp only [BitSet.capacity, BitSet.wordCount, Word.width] at *
        omega
      rw [if_neg ho, lowMask_eq (bitOffset_lt n), ok_bind, modifyAt_eq hpart, ok_bind,
        BitSet.modifyWord, modify_fillWords]
      rfl

def test (s : BitSet) (n : Nat) : Checked (Logged (Except Fault Bool)) := do
  let bound ← capacity s
  if n < bound then
    let w ← readAt s.words (wordIndex n)
    let shifted ← shiftRight w (bitOffset n)
    return ⟨.ok (shifted &&& 1 != 0), []⟩
  else
    let fault : Fault := .outOfRange .test n bound
    return ⟨.error fault, [.misused fault]⟩

theorem test_eq (hs : memory.Holds s) (n : Nat) : test s n = .ok (s.test n) := by
  rw [test, capacity_eq hs, ok_bind, BitSet.test]
  by_cases h : n < s.capacity
  · rw [if_pos h, if_pos h, readAt_eq (wordIndex_lt_iff.2 h), ok_bind,
      shiftRight_eq (bitOffset_lt n), ok_bind, Word.shifted_bne_zero (bitOffset_lt n)]
    rfl
  · rw [if_neg h, if_neg h]
    rfl

/-- A position past the last word is looked up without an index. -/
def contains (s : BitSet) (n : Nat) : Checked Bool :=
  match s.words[wordIndex n]? with
  | some w => do
      let shifted ← shiftRight w (bitOffset n)
      return shifted &&& 1 != 0
  | none => return false

theorem contains_eq (s : BitSet) (n : Nat) : contains s n = .ok (s.contains n) := by
  rw [contains, BitSet.contains, BitSet.wordAt, Array.getD_eq_getD_getElem?]
  cases s.words[wordIndex n]? with
  | none =>
      rw [Option.getD_none, Word.test_zero]
      rfl
  | some w =>
      rw [Option.getD_some, ← Word.shifted_bne_zero (bitOffset_lt n)]
      simp only [shiftRight_eq (bitOffset_lt n), ok_bind, pure_eq_ok]

section andThen

variable {α β ε : Type}

def andThen (o : Outcome (Except ε α)) (next : BitSet → Checked (Outcome (Except ε β))) :
    Checked (Outcome (Except ε β)) :=
  match o.result with
  | .ok _ => do
      let after ← next o.set
      return { after with events := o.events ++ after.events }
  | .error e => return ⟨.error e, o.set, o.events⟩

theorem runs_andThen {o : Outcome (Except ε α)} {next : BitSet → Checked (Outcome (Except ε β))}
    {plain : BitSet → Outcome (Except ε β)} (ho : memory.Holds o.set)
    (hnext : RunsTo memory (next o.set) (plain o.set)) :
    RunsTo memory (andThen o next) (o.andThen plain) := by
  rw [andThen]
  cases hr : o.result with
  | ok a =>
      rw [RunsTo, Outcome.andThen_of_ok hr]
      exact Runs.andThen_ok hnext fun _ => rfl
  | error e =>
      rw [RunsTo, Outcome.andThen_of_error hr]
      exact Runs.of_ok ho _

theorem wordCount_le_andThen (o : Outcome (Except ε α)) {next : BitSet → Outcome (Except ε β)}
    (hnext : ∀ t, t.wordCount ≤ (next t).set.wordCount) :
    o.set.wordCount ≤ (o.andThen next).set.wordCount := by
  cases hr : o.result with
  | ok a =>
      rw [Outcome.andThen_of_ok hr]
      exact hnext o.set
  | error e => rw [Outcome.andThen_of_error hr]

end andThen

def extend (memory : Memory) (s : BitSet) : List Nat → Checked (Outcome (Except Fault Unit))
  | [] => return .done s
  | n :: rest => do
      let inserted ← insert memory s n
      andThen inserted fun t => extend memory t rest

theorem runs_extend (hs : memory.Holds s) {positions : List Nat}
    (h : ∀ n ∈ positions, n < numberLimit) :
    RunsTo memory (extend memory s positions) (s.extend positions) := by
  induction positions generalizing s with
  | nil => exact Runs.of_ok hs _
  | cons n rest ih =>
      rw [extend, BitSet.extend_cons]
      refine (runs_insert hs (h n List.mem_cons_self)).bind ?_ fun hfit => ?_
      · exact wordCount_le_andThen _ fun t => t.wordCount_le_apply (.extend rest)
      · exact runs_andThen hfit (ih hfit fun m hm => h m (List.mem_cons_of_mem n hm))

/-- The growable set of some positions. That one of them is refused would be a trap. -/
def collect (memory : Memory) (positions : List Nat) : Checked (Logged BitSet) := do
  let empty ← blank memory 0 true
  let grown ← extend memory empty positions
  match grown.result with
  | .ok () => return ⟨grown.set, grown.events⟩
  | .error fault => .error (.misuse fault)

theorem runs_collect {positions : List Nat} (h : ∀ n ∈ positions, n < numberLimit) :
    Runs memory (BitSet.collect positions).result.wordCount (collect memory positions)
      (BitSet.collect positions) := by
  have hempty : memory.Holds (BitSet.blank 0 true) := Nat.zero_le _
  refine (runs_blank (by decide) true).bind (Nat.zero_le _) fun _ => ?_
  refine (runs_extend hempty h).andThen_ok fun _ => ?_
  rw [BitSet.extend_of_growable rfl]
  rfl

def allocate (memory : Memory) (s : BitSet) : Checked (Outcome (Option Nat)) :=
  match s.words.findIdx? (· != Word.full) with
  | some i => do
      let w ← readAt s.words i
      let offset := Word.trailingZeros (~~~w)
      let bit ← single offset
      let words ← modifyAt s.words i (· ||| bit)
      let start ← mul Word.width i
      let n ← add start offset
      return ⟨some n, { s with words }, []⟩
  | none =>
      if s.growable then do
        let n ← capacity s
        let grown ← growToCover memory s n
        let marked ← mark grown.set n
        return ⟨some n, marked, grown.events⟩
      else return ⟨none, s, []⟩

/-- A word that is not full has a clear offset, so the position found in it is under the
capacity. -/
theorem allocate_of_found (hs : memory.Holds s) {i : Nat}
    (h : s.words.findIdx? (· != Word.full) = some i) : allocate memory s = .ok s.allocate := by
  obtain ⟨hi, hne, -⟩ := Array.findIdx?_eq_some_iff_getElem.1 h
  rw [bne_iff_ne, ← s.wordAt_eq_getElem hi] at hne
  have hclear := Word.lowestClear_lt hne
  have hlt : Word.width * i + Word.lowestClear (s.wordAt i) < s.capacity :=
    Nat.lt_of_lt_of_le (Nat.add_lt_add_left hclear _) (Nat.mul_le_mul_left _ hi)
  have hadd := hlt.trans hs.capacity_lt
  have hmark : s.mark (Word.width * i + Word.lowestClear (s.wordAt i)) =
      s.modifyWord i (· ||| Word.single (Word.lowestClear (s.wordAt i))) := by
    rw [BitSet.mark, wordIndex_width_mul_add hclear, bitOffset_width_mul_add hclear]
    rfl
  rw [allocate, h, BitSet.allocate, BitSet.firstFree?, h, Option.map_some]
  simp only []
  rw [readAt_eq hi, ok_bind, Word.trailingZeros_not, single_eq hclear, ok_bind, modifyAt_eq hi,
    ok_bind, mul_eq (Nat.lt_of_le_of_lt (Nat.le_add_right _ _) hadd), ok_bind, add_eq hadd, hmark]
  rfl

theorem runs_allocate (hs : memory.Holds s) :
    RunsTo memory (allocate memory s) s.allocate := by
  cases hf : s.words.findIdx? (· != Word.full) with
  | some i =>
      have hcount : s.allocate.set.wordCount = s.wordCount := by
        rw [BitSet.allocate, BitSet.firstFree?, hf]
        exact s.wordCount_mark _
      rw [allocate_of_found hs hf]
      exact Runs.of_ok (hcount.trans_le hs) _
  | none =>
      have hfull : s.firstFree? = none := by rw [BitSet.firstFree?, hf, Option.map_none]
      have hbound := Nat.le_refl s.capacity
      rw [allocate, hf, BitSet.allocate, hfull]
      cases hg : s.growable with
      | true =>
          have hcover : RunsTo memory (growToCover memory s s.capacity)
              (s.grow (wordIndex s.capacity + 1)) :=
            runs_growToCover hg hbound hs.capacity_lt
          have hmark := mark_eq (s.lt_capacity_grow hbound)
          rw [s.wordIndex_capacity] at hcover hmark
          simp only [if_true, capacity_eq hs, ok_bind]
          rw [RunsTo, BitSet.wordCount_mark]
          refine hcover.andThen_ok fun _ => ?_
          rw [hmark]
          rfl
      | false => exact Runs.of_ok hs _

def allocateMany (memory : Memory) (s : BitSet) : Nat → Checked (Outcome (List (Option Nat)))
  | 0 => return ⟨[], s, []⟩
  | count + 1 => do
      let first ← allocate memory s
      let later ← allocateMany memory first.set count
      return ⟨first.result :: later.result, later.set, first.events ++ later.events⟩

theorem runs_allocateMany (hs : memory.Holds s) (count : Nat) :
    RunsTo memory (allocateMany memory s count) (s.allocateMany count) := by
  induction count generalizing s with
  | zero => exact Runs.of_ok hs _
  | succ count ih =>
      refine (runs_allocate hs).bind ?_ fun hfit => ?_
      · exact s.allocate.set.wordCount_le_apply (.allocateMany count)
      · exact (ih hfit).andThen_ok fun _ => rfl

end Checked

end PackedSet
