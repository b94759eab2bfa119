import PackedSet.Proofs.Checked.Cursor
import PackedSet.Proofs.Numeral.Reading

/-!
# Checked reading and writing

A numeral is read from the right, one byte after the other, into a set that has a position for
each byte. So every one of it goes in without growth, and no position is refused. A list of members
is written by a cursor.
-/

namespace PackedSet.Checked

open Numeral (ReadError)

variable {memory : Memory} {s : BitSet}

/-- The number of bytes of a text. A text with more of them than there are machine numbers fits
into no memory. -/
def length (bytes : List UInt8) : Checked Nat := do
  require (bytes.length < numberLimit) (.exhausted bytes.length)
  return bytes.length

/-- Reads bytes with their offsets into a set, where the next digit is that of position `n`. -/
def readDigits (memory : Memory) (s : BitSet) (n : Nat) :
    List (UInt8 × Nat) → Checked (Logged (Except ReadError BitSet))
  | [] => return ⟨.ok s, []⟩
  | (b, offset) :: rest =>
      if b = Numeral.one then do
        let inserted ← insert memory s n
        match inserted.result with
        | .ok () =>
            let next ← add n 1
            let later ← readDigits memory inserted.set next rest
            return { later with events := inserted.events ++ later.events }
        | .error fault => .error (.misuse fault)
      else if b = Numeral.zero then do
        let next ← add n 1
        readDigits memory s next rest
      else if b = Numeral.underscore then readDigits memory s n rest
      else return ⟨.error (.invalid (Char.ofUInt8 b) offset), []⟩

def readBytes (memory : Memory) (bytes : List UInt8) :
    Checked (Logged (Except ReadError BitSet)) :=
  if bytes.isEmpty then return ⟨.error .empty, []⟩
  else do
    let bits ← length bytes
    let empty ← blank memory bits true
    readDigits memory empty 0 bytes.zipIdx.reverse

/-- The positions of the ones in a row of bytes, where the first digit is that of `n`. -/
def places (n : Nat) (row : List (UInt8 × Nat)) : List Nat :=
  ((((row.map Prod.fst).filter (· != Numeral.underscore)).zipIdx n).filter
    fun (b, _) => b == Numeral.one).map (·.2)

theorem places_zipIdx_reverse (bytes : List UInt8) :
    places 0 bytes.zipIdx.reverse = Numeral.onePlaces bytes := by
  rw [places, List.map_reverse, List.zipIdx_map_fst]
  rfl

theorem places_one (n offset : Nat) (rest : List (UInt8 × Nat)) :
    places n ((Numeral.one, offset) :: rest) = n :: places (n + 1) rest := rfl

def readRow (s : BitSet) (n : Nat) (row : List (UInt8 × Nat)) :
    Logged (Except ReadError BitSet) :=
  match row.find? fun (b, _) => !Numeral.isNumeralByte b with
  | some (b, offset) => ⟨.error (.invalid (Char.ofUInt8 b) offset), []⟩
  | none => ⟨.ok (s.extend (places n row)).set, (s.extend (places n row)).events⟩

theorem readRow_one {n : Nat} (h : n < s.capacity) (offset : Nat) (rest : List (UInt8 × Nat)) :
    readRow s n ((Numeral.one, offset) :: rest) = readRow (s.mark n) (n + 1) rest := by
  have hrow : s.extend (places n ((Numeral.one, offset) :: rest)) =
      (s.mark n).extend (places (n + 1) rest) := by
    rw [places_one, BitSet.extend_cons, s.insert_of_lt h, Outcome.done_andThen]
  rw [readRow, readRow, hrow]
  rfl

theorem readRow_zero (n offset : Nat) (rest : List (UInt8 × Nat)) :
    readRow s n ((Numeral.zero, offset) :: rest) = readRow s (n + 1) rest := rfl

theorem readRow_underscore (n offset : Nat) (rest : List (UInt8 × Nat)) :
    readRow s n ((Numeral.underscore, offset) :: rest) = readRow s n rest := rfl

theorem readRow_of_flaw {b : UInt8} (h : Numeral.isNumeralByte b = false) (n offset : Nat)
    (rest : List (UInt8 × Nat)) : readRow s n ((b, offset) :: rest) =
      ⟨.error (.invalid (Char.ofUInt8 b) offset), []⟩ := by
  simp only [readRow, List.find?_cons, h, Bool.not_false]

/-- While there is a position for each byte that is left, nothing goes wrong. -/
theorem readDigits_eq (hs : memory.Holds s) {n : Nat} {row : List (UInt8 × Nat)}
    (h : n + row.length ≤ s.capacity) : readDigits memory s n row = .ok (readRow s n row) := by
  induction row generalizing s n with
  | nil => rfl
  | cons head rest ih =>
      obtain ⟨b, offset⟩ := head
      rw [List.length_cons] at h
      have hlt : n < s.capacity := by omega
      have hadd : n + 1 < numberLimit := Nat.lt_of_le_of_lt hlt hs.capacity_lt
      have hrest : n + 1 + rest.length ≤ s.capacity := by omega
      rw [readDigits]
      by_cases hone : b = Numeral.one
      · subst hone
        have hcapacity : (s.mark n).capacity = s.capacity :=
          congrArg (Word.width * ·) (s.wordCount_mark n)
        have hlater := ih ((s.wordCount_mark n).trans_le hs) (hcapacity.symm ▸ hrest)
        rw [if_pos rfl, insert_of_lt hs hlt, readRow_one hlt]
        -- The insertion has succeeded, so its match is the branch that goes on.
        change (add n 1 >>= fun next => readDigits memory (s.mark n) next rest >>= fun later =>
          return { later with events := [] ++ later.events }) = _
        rw [add_eq hadd, ok_bind, hlater]
        rfl
      · rw [if_neg hone]
        by_cases hzero : b = Numeral.zero
        · subst hzero
          rw [if_pos rfl, add_eq hadd, ok_bind, readRow_zero]
          exact ih hs hrest
        · rw [if_neg hzero]
          by_cases hline : b = Numeral.underscore
          · subst hline
            rw [if_pos rfl, readRow_underscore]
            exact ih hs (by omega)
          · have hflaw : Numeral.isNumeralByte b = false := by
              simp [Numeral.isNumeralByte, hone, hzero, hline]
            rw [if_neg hline, readRow_of_flaw hflaw]
            rfl

theorem readRow_zipIdx_reverse {bytes : List UInt8} (h : bytes ≠ []) :
    readRow (BitSet.blank bytes.length true) 0 bytes.zipIdx.reverse =
      Numeral.readBytes bytes := by
  rw [Numeral.readBytes, if_neg (mt List.isEmpty_iff.1 h), readRow, places_zipIdx_reverse]
  rfl

/-- A text takes the memory of a set with a position for each of its bytes. -/
theorem runs_readBytes (bytes : List UInt8) :
    Runs memory (PackedSet.wordsFor bytes.length) (readBytes memory bytes)
      (Numeral.readBytes bytes) := by
  rw [readBytes]
  by_cases hnil : bytes = []
  · subst hnil
    exact Runs.of_ok (Nat.zero_le _) _
  · rw [if_neg (mt List.isEmpty_iff.1 hnil), length]
    by_cases hlt : bytes.length < numberLimit
    · rw [require_of hlt, ok_bind, pure_eq_ok, ok_bind]
      refine (runs_blank hlt true).andThen_ok fun hfit => ?_
      have hheld : memory.Holds (BitSet.blank bytes.length true) :=
        (BitSet.wordCount_blank _ _).trans_le hfit
      have hroom : 0 + bytes.zipIdx.reverse.length ≤
          (BitSet.blank bytes.length true).capacity := by
        rw [List.length_reverse, List.length_zipIdx, Nat.zero_add]
        exact BitSet.le_capacity_blank _ _
      rw [readDigits_eq hheld hroom, readRow_zipIdx_reverse hnil]
    · -- The positions of a memory are machine numbers, so it does not take a text this long.
      have hwords : memory.words < PackedSet.wordsFor bytes.length := by
        have hmemory := memory.addressable
        simp only [PackedSet.wordsFor, Word.width] at *
        omega
      have hlength : memory.words < bytes.length := by
        have hmemory := memory.addressable
        simp only [Word.width] at hmemory
        omega
      refine ⟨fun hfit => absurd hfit (Nat.not_le.2 hwords), fun _ => ⟨bytes.length, hlength, ?_⟩⟩
      rw [require, if_neg hlt]
      rfl

def format (spec : FormatSpec) (s : BitSet) : Checked String :=
  match spec.style with
  | .numeral => return s.format spec
  | .members base => do
      let c ← cursor s
      let (ns, _) ← rest c
      return String.ofList (Members.write spec base ns)

theorem format_eq (hs : memory.Holds s) (spec : FormatSpec) :
    format spec s = .ok (s.format spec) := by
  have hcursor : rest s.cursor = .ok s.cursor.rest := rest_eq hs
  cases hstyle : spec.style with
  | numeral => simp only [format, hstyle, pure_eq_ok]
  | members base =>
      simp only [format, hstyle, cursor_eq hs, ok_bind, hcursor, pure_eq_ok, BitSet.format,
        Cursor.rest_cursor]

end PackedSet.Checked
