import PackedSet.Proofs.Numeral.Digits
import Mathlib.Combinatorics.Colex

/-!
# The value of a numeral

A set is a number with a one at the places of its members: the sum of their powers of two. The
numeral of a set, which is put together word by word, is the numeral of this number in base two.
So it has as many digits as the greatest member needs, and no two sets with different members
are written the same.
-/

namespace PackedSet

/-- The number with the binary digit one exactly at the members. -/
def BitSet.value (s : BitSet) : Nat := ∑ n ∈ s.plain.members, 2 ^ n

theorem BitSet.testBit_value (s : BitSet) (n : Nat) : s.value.testBit n = s.contains n := by
  have hbits : s.value.bitIndices.toFinset = s.plain.members :=
    Finset.toFinset_bitIndices_sum_two_pow s.plain.members
  have hmem : n ∈ s.value.bitIndices.toFinset ↔ n ∈ s.plain.members := by rw [hbits]
  rw [List.mem_toFinset, Nat.mem_bitIndices, s.mem_plain] at hmem
  exact Bool.eq_iff_iff.2 hmem

theorem BitSet.value_eq_iff {s t : BitSet} : s.value = t.value ↔ s.sameMembers t = true := by
  rw [sameMembers_iff]
  constructor
  · intro h n
    rw [← s.testBit_value, h, t.testBit_value]
  · intro h
    apply Nat.eq_of_testBit_eq
    intro n
    rw [s.testBit_value, h, t.testBit_value]

namespace Numeral

/-- The digit of a remainder by two is the digit of the last bit. -/
theorem digitChar_mod_two (v : Nat) : Nat.digitChar (v % 2) = digit (v.testBit 0) := by
  rcases Nat.mod_two_eq_zero_or_one v with h | h <;> simp [h, digit]

/-- The numeral in base two is the row of the bits up to the highest one. -/
theorem toDigits_two_eq (v : Nat) : Nat.toDigits 2 v = digitsBelow v.testBit (v.log2 + 1) := by
  induction v using Nat.strong_induction_on with
  | h v ih =>
      have hlow : digitsBelow v.testBit 1 = [Nat.digitChar (v % 2)] := by
        rw [digitChar_mod_two]
        rfl
      by_cases hv : v < 2
      · have hlog : v.log2 = 0 := by
          rw [Nat.log2_def, if_neg (by omega)]
        rw [Nat.toDigits_of_lt_base hv, hlog, hlow, Nat.mod_eq_of_lt hv]
      · have hlog : v.log2 + 1 = 1 + ((v / 2).log2 + 1) := by
          rw [Nat.log2_def, if_pos (by omega)]
          omega
        have hhigh : (fun i => v.testBit (1 + i)) = (v / 2).testBit := by
          funext i
          rw [Nat.add_comm, Nat.testBit_add_one]
        have hhalf := ih (v / 2) (by omega)
        rw [Nat.toDigits_of_base_le (by omega) (by omega), hhalf, hlog, digitsBelow_add _ 1, hhigh,
          hlow]

@[simp] theorem length_digitsBelow (f : Nat → Bool) (n : Nat) : (digitsBelow f n).length = n := by
  simp [digitsBelow]

theorem getElem?_reverse_digitsBelow (f : Nat → Bool) {n k : Nat} (h : k < n) :
    (digitsBelow f n).reverse[k]? = some (digit (f k)) := by
  simp [digitsBelow, h]

variable (s : BitSet)

theorem digits_eq_toDigits : digits s = Nat.toDigits 2 s.value := by
  have hbits : s.contains = s.value.testBit := funext fun n => (s.testBit_value n).symm
  have hlt : ∀ m ∈ s, m < s.value.log2 + 1 := by
    intro m hm
    have hbit : s.value.testBit m = true := (s.testBit_value m).trans hm
    have hpow : 2 ^ m ≤ s.value := Nat.ge_two_pow_of_testBit hbit
    have hne : s.value ≠ 0 := by
      have := Nat.one_le_two_pow (n := m)
      omega
    have := (Nat.le_log2 hne).2 hpow
    omega
  rw [digits_eq_trim_of_lt s hlt, toDigits_two_eq, hbits]
  by_cases hzero : s.value = 0
  · rw [hzero]
    rfl
  · exact trim_digitsBelow_of_top (Nat.testBit_log2 hzero)

theorem digits_eq_zero_iff : digits s = ['0'] ↔ ∀ n, n ∉ s := by
  constructor
  · intro hdigits
    by_contra hsome
    push Not at hsome
    obtain ⟨n, hn⟩ := hsome
    obtain ⟨top, htop⟩ := exists_isGreatest s ⟨n, s.mem_plain.2 hn⟩
    rw [digits_of_isGreatest s htop, digitsBelow_succ, BitSet.mem_iff.1 htop.1] at hdigits
    simp [digit] at hdigits
  · intro hnone
    rw [digits_eq_trim_of_lt s (n := 0) fun m hm => absurd hm (hnone m)]
    rfl

theorem digits_eq_iff {s t : BitSet} : digits s = digits t ↔ s.sameMembers t = true := by
  rw [digits_eq_toDigits, digits_eq_toDigits, ← BitSet.value_eq_iff]
  constructor
  · intro h
    have hread := congrArg (fun ds => Nat.ofDigitChars 2 ds 0) h
    simpa only [Nat.ofDigitChars_toDigits (b := 2) (by omega) (by omega)] using hread
  · intro h
    rw [h]

theorem format_eq_append (spec : FormatSpec) :
    s.format { spec with style := .numeral } =
      (if spec.alternate then "0b" else "") ++ String.ofList (digits s) := by
  have hmark : "0b" = String.ofList mark := rfl
  cases spec.alternate with
  | true => simp only [BitSet.format, write, hmark, String.ofList_append, if_true]
  | false => simp [BitSet.format, write]

/-- A set is written as the numeral, in base two and without leading zeros, of the sum of the
powers of two at its members, and the empty set as zero. With a greatest member there is one digit
more than that, and from the right each digit tells whether its place is a member. The alternate
form has a mark in front, and no other flag shows. Two sets are written the same exactly if they
compare equal. -/
theorem format_writes_value (s : BitSet) :
    let text := s.format .plain
    text = String.ofList (Nat.toDigits 2 (∑ n ∈ s.plain.members, 2 ^ n)) ∧
    (∀ n, n ∈ s.plain.members ↔ s.contains n = true) ∧
    (text = "0" ↔ ∀ n, n ∉ s) ∧
    (∀ top, IsGreatest {n | n ∈ s} top → text.length = top + 1 ∧
      ∀ k, k ≤ top → text.toList.reverse[k]? = some (if k ∈ s then '1' else '0')) ∧
    (∀ spec : FormatSpec, s.format { spec with style := .numeral } =
      (if spec.alternate then "0b" else "") ++ text) ∧
    ∀ (t : BitSet) (spec : FormatSpec),
      s.format { spec with style := .numeral } = t.format { spec with style := .numeral } ↔
        s.sameMembers t = true := by
  intro text
  have htext : text = String.ofList (digits s) := rfl
  have hzero : "0" = String.ofList ['0'] := rfl
  refine ⟨?_, fun n => s.mem_plain, ?_, ?_, format_eq_append s, ?_⟩
  · rw [htext, digits_eq_toDigits, BitSet.value]
  · rw [← digits_eq_zero_iff, htext, hzero, String.ofList_inj]
  · intro top htop
    rw [htext, digits_of_isGreatest s htop]
    refine ⟨by simp, fun k hk => ?_⟩
    rw [String.toList_ofList, getElem?_reverse_digitsBelow _ (by omega)]
    rfl
  · intro t spec
    rw [format_eq_append s, format_eq_append t, String.append_right_inj, String.ofList_inj,
      digits_eq_iff]

/-- The second word is empty but written in full, and the last one is left out. -/
theorem format_writes_value_gapped :
    let s : BitSet := ⟨#[5, 0, 2, 0], true⟩
    IsGreatest {n | n ∈ s} 65 ∧ (s.format .plain).length = 66 ∧
      (s.format .plain).toList.reverse[40]? = some '0' := by
  intro s
  have hmax : ∀ n, n < s.capacity → n ∈ s → n ≤ 65 := by decide +kernel
  have htop : IsGreatest {n | n ∈ s} 65 :=
    ⟨by decide +kernel, fun n hn => hmax n (BitSet.lt_capacity_of_mem hn) hn⟩
  obtain ⟨-, -, -, hdigits, -⟩ := format_writes_value s
  obtain ⟨hlength, hplace⟩ := hdigits 65 htop
  have hclear : 40 ∉ s := by decide +kernel
  have hplace40 := hplace 40 (by omega)
  rw [if_neg hclear] at hplace40
  exact ⟨htop, hlength, hplace40⟩

end Numeral

end PackedSet
