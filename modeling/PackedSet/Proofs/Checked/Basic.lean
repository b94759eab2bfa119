import PackedSet.Fault
import PackedSet.PowerOfTwo
import PackedSet.Proofs.Shift

/-!
# Checked steps

A machine does not carry out every step: an index may lie outside its slice, a shift may be as wide
as a word, a number may be too large, and memory may run out. A `Checked` computation tests each of
its steps and ends with a `Trap` at the first that fails. `Runs` says of a computation that nothing
but the memory can stop it, and how much memory it takes.
-/

namespace PackedSet

inductive Trap where
  | index (i length : Nat)
  /-- A part of a slice with a bound outside the slice. -/
  | range (bound length : Nat)
  /-- A copy between slices of two lengths. -/
  | lengths (dest src : Nat)
  | shift (amount : Nat)
  | mask (bits : Nat)
  | overflow
  /-- A growth that does not make a set larger. -/
  | growth (old new : Nat)
  /-- The growth of a fixed set. -/
  | rigid
  | exhausted (words : Nat)
  /-- A promise that a call breaks inside of another call. -/
  | misuse (fault : Fault)
deriving DecidableEq

abbrev Checked := Except Trap

/-- Machine numbers are below it. -/
def numberLimit : Nat := 0x10000000000000000

/-- A memory that takes sets of so many words and no larger ones. Their positions, and the number of
them, are machine numbers. -/
structure Memory where
  words : Nat
  addressable : Word.width * words < numberLimit

theorem Memory.width_mul_le (memory : Memory) {count : Nat} (h : count ≤ memory.words) :
    Word.width * count ≤ numberLimit :=
  Nat.le_trans (Nat.mul_le_mul_left Word.width h) (Nat.le_of_lt memory.addressable)

namespace Checked

variable {α β : Type}

@[simp] theorem ok_bind (a : α) (next : α → Checked β) : (.ok a : Checked α) >>= next = next a := rfl

@[simp] theorem error_bind (t : Trap) (next : α → Checked β) :
    (.error t : Checked α) >>= next = .error t := rfl

@[simp] theorem pure_eq_ok (a : α) : (pure a : Checked α) = .ok a := rfl

def whenSome (x : Option α) (next : α → Checked (Option β)) : Checked (Option β) :=
  match x with
  | some a => next a
  | none => return none

theorem whenSome_eq {x : Option α} {next : α → Checked (Option β)} {plain : α → Option β}
    (h : ∀ a, x = some a → next a = .ok (plain a)) : whenSome x next = .ok (x.bind plain) := by
  cases x with
  | none => rfl
  | some a => exact h a rfl

def require (p : Prop) [Decidable p] (trap : Trap) : Checked Unit :=
  if p then .ok () else .error trap

theorem require_of {p : Prop} [Decidable p] (h : p) (trap : Trap) : require p trap = .ok () :=
  if_pos h

def add (a b : Nat) : Checked Nat := do
  require (a + b < numberLimit) .overflow
  return a + b

theorem add_eq {a b : Nat} (h : a + b < numberLimit) : add a b = .ok (a + b) := by
  rw [add, require_of h]
  rfl

def mul (a b : Nat) : Checked Nat := do
  require (a * b < numberLimit) .overflow
  return a * b

theorem mul_eq {a b : Nat} (h : a * b < numberLimit) : mul a b = .ok (a * b) := by
  rw [mul, require_of h]
  rfl

def nextPowerOfTwo (n : Nat) : Checked Nat := do
  require (leastPowerOfTwo n < numberLimit) .overflow
  return leastPowerOfTwo n

/-- The power of two above the number of words of positions is a machine number. -/
theorem nextPowerOfTwo_eq {n : Nat} (h : Word.width * n ≤ numberLimit) :
    nextPowerOfTwo n = .ok (leastPowerOfTwo n) := by
  have hn : n ≤ 1 <<< 59 := by
    simp only [Word.width, numberLimit] at h
    omega
  have hlt : leastPowerOfTwo n < numberLimit :=
    Nat.lt_of_le_of_lt (leastPowerOfTwo_le hn) (by decide)
  rw [nextPowerOfTwo, require_of hlt]
  rfl

def readAt (words : Array Word) (i : Nat) : Checked Word := do
  require (i < words.size) (.index i words.size)
  return words.getD i 0

def modifyAt (words : Array Word) (i : Nat) (f : Word → Word) : Checked (Array Word) := do
  require (i < words.size) (.index i words.size)
  return words.modify i f

def sliceTo (words : Array Word) (stop : Nat) : Checked (Array Word) := do
  require (stop ≤ words.size) (.range stop words.size)
  return words.extract 0 stop

def sliceFrom (words : Array Word) (start : Nat) : Checked (List Word) := do
  require (start ≤ words.size) (.range start words.size)
  return words.toList.drop start

def copyFront (dest src : Array Word) : Checked (Array Word) := do
  let front ← sliceTo dest src.size
  require (front.size = src.size) (.lengths front.size src.size)
  return src ++ dest.extract src.size dest.size

def single (i : Nat) : Checked Word := do
  require (i < Word.width) (.shift i)
  return Word.single i

theorem single_eq {i : Nat} (h : i < Word.width) : single i = .ok (Word.single i) := by
  rw [single, require_of h]
  rfl

def lowMask (n : Nat) : Checked Word := do
  require (n < Word.width) (.mask n)
  let bit ← single n
  require (1 ≤ bit) .overflow
  return bit - 1

theorem one_le_single {i : Nat} (h : i < Word.width) : 1 ≤ Word.single i := by
  rw [UInt32.le_iff_toNat_le, Word.toNat_single h, Nat.one_shiftLeft]
  exact Nat.one_le_two_pow

theorem lowMask_eq {n : Nat} (h : n < Word.width) : lowMask n = .ok (Word.below n) := by
  rw [lowMask, require_of h, ok_bind, single_eq h, ok_bind, require_of (one_le_single h)]
  rfl

def shiftRight (w : Word) (amount : Nat) : Checked Word := do
  require (amount < Word.width) (.shift amount)
  return w >>> UInt32.ofNat amount

theorem shiftRight_eq {amount : Nat} (h : amount < Word.width) (w : Word) :
    shiftRight w amount = .ok (w >>> UInt32.ofNat amount) := by
  rw [shiftRight, require_of h]
  rfl

def total (words : List Word) : Checked Nat :=
  words.foldlM (fun count w => add count (Word.ones w)) 0

theorem foldlM_add_ones {count : Nat} (words : List Word)
    (h : count + Word.width * words.length < numberLimit) :
    words.foldlM (fun count w => add count (Word.ones w)) count =
      .ok (words.foldl (fun count w => count + Word.ones w) count) := by
  induction words generalizing count with
  | nil => rfl
  | cons w rest ih =>
      have hw := Word.ones_le_width w
      rw [List.length_cons, Nat.mul_succ] at h
      rw [List.foldlM_cons, add_eq (by omega), ok_bind, ih (by omega), List.foldl_cons]

theorem total_eq {words : List Word} (h : Word.width * words.length < numberLimit) :
    total words = .ok (words.foldl (fun count w => count + Word.ones w) 0) :=
  foldlM_add_ones words (by omega)

def zeroed (memory : Memory) (count : Nat) : Checked (Array Word) := do
  require (count ≤ memory.words) (.exhausted count)
  return Array.replicate count 0

/-- The computation ends with `a`, provided that the memory takes `words` words. With less, it is
out of memory. -/
structure Runs (memory : Memory) (words : Nat) (x : Checked α) (a : α) : Prop where
  fits : words ≤ memory.words → x = .ok a
  exhausted : memory.words < words → ∃ count, memory.words < count ∧ x = .error (.exhausted count)

namespace Runs

variable {memory : Memory} {words later : Nat} {x : Checked α} {a : α} {b : β}

theorem of_ok (h : words ≤ memory.words) (a : α) : Runs memory words (.ok a) a :=
  ⟨fun _ => rfl, fun hlt => absurd hlt (Nat.not_lt.2 h)⟩

theorem of_eq (hx : x = .ok a) (h : words ≤ memory.words) : Runs memory words x a :=
  hx ▸ of_ok h a

theorem zeroed (count : Nat) :
    Runs memory count (zeroed memory count) (Array.replicate count 0) := by
  constructor
  · intro h
    rw [Checked.zeroed, require_of h]
    rfl
  · intro h
    refine ⟨count, h, ?_⟩
    rw [Checked.zeroed, require, if_neg (Nat.not_le.2 h)]
    rfl

/-- Two steps in a row, where the second takes no less memory. -/
theorem bind {next : α → Checked β} (h : Runs memory words x a) (hle : words ≤ later)
    (hnext : words ≤ memory.words → Runs memory later (next a) b) :
    Runs memory later (x >>= next) b := by
  constructor
  · intro hfit
    have hfirst := Nat.le_trans hle hfit
    rw [h.fits hfirst, ok_bind]
    exact (hnext hfirst).fits hfit
  · intro hlt
    by_cases hfirst : words ≤ memory.words
    · rw [h.fits hfirst, ok_bind]
      exact (hnext hfirst).exhausted hlt
    · obtain ⟨count, hcount, hx⟩ := h.exhausted (Nat.not_le.1 hfirst)
      exact ⟨count, hcount, by rw [hx, error_bind]⟩

/-- A step after which no more memory is taken. -/
theorem andThen_ok {next : α → Checked β} (h : Runs memory words x a)
    (hnext : words ≤ memory.words → next a = .ok b) : Runs memory words (x >>= next) b := by
  refine h.bind (Nat.le_refl words) fun hfit => ?_
  rw [hnext hfit]
  exact of_ok hfit b

theorem whenSome {y : Option α} {need : α → Nat} {next : α → Checked (Option β)}
    {plain : α → Option β} (h : ∀ a, y = some a → Runs memory (need a) (next a) (plain a)) :
    Runs memory ((y.map need).getD 0) (whenSome y next) (y.bind plain) := by
  cases y with
  | none => exact of_ok (Nat.zero_le _) _
  | some a => exact h a rfl

/-- Memory that was there before is no demand on the steps that follow. -/
theorem max_left (h : Runs memory later x a) (hfit : words ≤ memory.words) :
    Runs memory (max words later) x a := by
  constructor
  · intro hmax
    exact h.fits (Nat.max_le.1 hmax).2
  · intro hlt
    exact h.exhausted (by omega)

end Runs

end Checked

end PackedSet
