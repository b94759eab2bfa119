import PackedSet.Text.Members
import Mathlib.Data.List.DropRight
import Mathlib.Data.List.Basic

/-!
# Entries of a list of members

An entry is read back as a number: the blanks around it are dropped, then its sign and its mark,
and what is left are digits of the base. Zeros in front of a number are no part of its value, so
the two ways to fill an entry up to a width leave the same number.
-/

namespace PackedSet

namespace Base

variable (b : Base)

def symbols : Base → List Char
  | decimal => ['0', '1', '2', '3', '4', '5', '6', '7', '8', '9']
  | lowerHex => ['0', '1', '2', '3', '4', '5', '6', '7', '8', '9', 'a', 'b', 'c', 'd', 'e', 'f']
  | upperHex => ['0', '1', '2', '3', '4', '5', '6', '7', '8', '9', 'A', 'B', 'C', 'D', 'E', 'F']

def append? (n : Nat) (c : Char) : Option Nat := (b.symbols.idxOf? c).map (b.radix * n + ·)

/-- The value of digits. It takes at least one digit, and nothing else. -/
def value? (cs : List Char) : Option Nat := if cs.isEmpty then none else cs.foldlM b.append? 0

def letter (c : Char) : Char :=
  match b with
  | upperHex => c.toUpper
  | _ => c

theorem one_lt_radix : 1 < b.radix := by
  cases b <;> decide

theorem digits_eq_map (n : Nat) : b.digits n = (Nat.toDigits b.radix n).map b.letter := by
  cases b with
  | decimal => exact (List.map_id _).symm
  | lowerHex => exact (List.map_id _).symm
  | upperHex => rfl

theorem digits_of_lt {n : Nat} (h : n < b.radix) : b.digits n = [b.letter (Nat.digitChar n)] := by
  rw [digits_eq_map, Nat.toDigits_of_lt_base h, List.map_singleton]

theorem digits_of_le {n : Nat} (h : b.radix ≤ n) : b.digits n =
    b.digits (n / b.radix) ++ [b.letter (Nat.digitChar (n % b.radix))] := by
  rw [digits_eq_map, digits_eq_map, Nat.toDigits_of_base_le b.one_lt_radix h, List.map_append,
    List.map_singleton]

theorem digits_ne_nil (n : Nat) : b.digits n ≠ [] := by
  rw [digits_eq_map, Ne, List.map_eq_nil_iff]
  exact Nat.toDigits_ne_nil

theorem append?_digitChar (n : Nat) {d : Nat} (h : d < b.radix) :
    b.append? n (b.letter (Nat.digitChar d)) = some (b.radix * n + d) := by
  have hindex : b.symbols.idxOf? (b.letter (Nat.digitChar d)) = some d := by
    cases b <;> revert d <;> decide
  rw [append?, hindex, Option.map_some]

theorem foldlM_digits (n : Nat) : (b.digits n).foldlM b.append? 0 = some n := by
  induction n using Nat.strong_induction_on with
  | h n ih =>
      have hradix := b.one_lt_radix
      rcases Nat.lt_or_ge n b.radix with hn | hn
      · rw [digits_of_lt b hn, List.foldlM_cons, append?_digitChar b 0 hn, Nat.mul_zero,
          Nat.zero_add]
        rfl
      · have hhigh := ih (n / b.radix) (Nat.div_lt_self (by omega) hradix)
        have hlow : n % b.radix < b.radix := Nat.mod_lt _ (by omega)
        rw [digits_of_le b hn, List.foldlM_append, hhigh, Option.bind_eq_bind, Option.bind_some,
          List.foldlM_cons, append?_digitChar b _ hlow, Nat.div_add_mod]
        rfl

theorem foldlM_zeros (count : Nat) :
    (List.replicate count '0').foldlM b.append? 0 = some 0 := by
  induction count with
  | zero => rfl
  | succ count ih =>
      have hzero : b.append? 0 '0' = some 0 := by cases b <;> rfl
      rw [List.replicate_succ, List.foldlM_cons, hzero]
      exact ih

/-- Zeros in front do not change the value of digits. -/
theorem foldlM_zeros_digits (count n : Nat) :
    (List.replicate count '0' ++ b.digits n).foldlM b.append? 0 = some n := by
  rw [List.foldlM_append, foldlM_zeros, Option.bind_eq_bind, Option.bind_some, foldlM_digits]

theorem value?_zeros_digits (count n : Nat) :
    b.value? (List.replicate count '0' ++ b.digits n) = some n := by
  have hne : ¬ (List.replicate count '0' ++ b.digits n).isEmpty = true := by
    rw [List.isEmpty_iff, List.append_eq_nil_iff]
    exact fun h => b.digits_ne_nil n h.2
  rw [value?, if_neg hne, foldlM_zeros_digits]

/-- A row of characters that has a value has only symbols of the base. -/
theorem subset_symbols_of_foldlM {cs : List Char} {n m : Nat}
    (h : cs.foldlM b.append? n = some m) : cs ⊆ b.symbols := by
  induction cs generalizing n with
  | nil => exact List.nil_subset _
  | cons d cs ih =>
      rw [List.foldlM_cons] at h
      obtain ⟨k, hk, hrest⟩ := Option.bind_eq_some_iff.1 h
      obtain ⟨i, hi, -⟩ := Option.map_eq_some_iff.1 hk
      refine List.cons_subset.2 ⟨?_, ih hrest⟩
      by_contra hd
      rw [List.idxOf?_eq_none_iff.2 hd] at hi
      cases hi

theorem zeros_digits_subset_symbols (count n : Nat) :
    List.replicate count '0' ++ b.digits n ⊆ b.symbols :=
  b.subset_symbols_of_foldlM (b.foldlM_zeros_digits count n)

end Base

namespace Members

variable (spec : FormatSpec) (base : Base)

def isBlank (c : Char) : Bool := c == ' ' || c == '\n'

def trim (cs : List Char) : List Char := (cs.dropWhile isBlank).rdropWhile isBlank

def dropFront (front cs : List Char) : List Char :=
  if front <+: cs then cs.drop front.length else cs

def entryValue? (cs : List Char) : Option Nat :=
  base.value? (dropFront base.mark (dropFront ['+'] cs))

/-- An entry without the blanks around it: its sign and mark, and its digits behind zeros. -/
def bare (zeros n : Nat) : List Char :=
  front spec base ++ (List.replicate zeros '0' ++ base.digits n)

theorem exists_entry_eq (h : spec.fill = ' ') (n : Nat) : ∃ left zeros right,
    entry spec base n =
      List.replicate left ' ' ++ bare spec base zeros n ++ List.replicate right ' ' := by
  rw [entry, h]
  by_cases hzero : spec.zeroPad = true
  · rw [if_pos hzero]
    exact ⟨0, _, 0, (List.append_nil _).symm⟩
  · rw [if_neg hzero]
    cases spec.alignment.getD .right with
    | left => exact ⟨0, 0, _, rfl⟩
    | right => exact ⟨_, 0, 0, (List.append_nil _).symm⟩
    | center => exact ⟨_, 0, _, rfl⟩

theorem dropFront_append {front rest : List Char} (flag : Bool) (h : front <+: rest → front = []) :
    dropFront front ((if flag then front else []) ++ rest) = rest := by
  cases flag with
  | true => exact (if_pos (List.prefix_append front rest)).trans List.drop_left
  | false =>
      by_cases hfront : front <+: rest
      · obtain rfl := h hfront
        exact if_pos hfront
      · exact if_neg hfront

theorem marked_subset (marked : Bool) (zeros n : Nat) :
    (if marked then base.mark else []) ++ (List.replicate zeros '0' ++ base.digits n) ⊆
      'x' :: base.symbols := by
  have hmark : base.mark ⊆ 'x' :: base.symbols := by cases base <;> decide
  refine List.append_subset.2 ⟨?_, ?_⟩
  · cases marked with
    | true => exact hmark
    | false => exact List.nil_subset _
  · exact List.subset_cons_of_subset _ (base.zeros_digits_subset_symbols zeros n)

theorem entryValue?_bare (zeros n : Nat) : entryValue? base (bare spec base zeros n) = some n := by
  -- No mark and no sign is a row of digits, so digits without one do not look as if they had it.
  have hmark : base.mark <+: List.replicate zeros '0' ++ base.digits n → base.mark = [] := by
    intro hstarts
    have hsymbols : base.mark ⊆ base.symbols :=
      List.Subset.trans hstarts.subset (base.zeros_digits_subset_symbols zeros n)
    revert hsymbols
    cases base <;> decide
  have hplus : ['+'] <+: (if spec.alternate then base.mark else []) ++
      (List.replicate zeros '0' ++ base.digits n) → ['+'] = [] := by
    intro hstarts
    have hmem := marked_subset base _ zeros n (hstarts.subset List.mem_cons_self)
    revert hmem
    cases base <;> decide
  rw [entryValue?, bare, front, List.append_assoc, dropFront_append _ hplus,
    dropFront_append _ hmark, base.value?_zeros_digits]

theorem bare_ne_nil (zeros n : Nat) : bare spec base zeros n ≠ [] := by
  rw [bare]
  exact List.append_ne_nil_of_right_ne_nil _
    (List.append_ne_nil_of_right_ne_nil _ (base.digits_ne_nil n))

theorem bare_subset (zeros n : Nat) : bare spec base zeros n ⊆ '+' :: 'x' :: base.symbols := by
  rw [bare, front, List.append_assoc]
  refine List.append_subset.2 ⟨?_, List.subset_cons_of_subset _ (marked_subset base _ zeros n)⟩
  cases spec.plus with
  | true => exact List.cons_subset_cons _ (List.nil_subset _)
  | false => exact List.nil_subset _

/-- An entry has no blank and no comma inside. -/
theorem not_isBlank_of_mem_bare {zeros n : Nat} {c : Char} (h : c ∈ bare spec base zeros n) :
    isBlank c = false ∧ c ≠ ',' := by
  have hsymbols : ('+' :: 'x' :: base.symbols).all (fun d => !isBlank d && d != ',') = true := by
    cases base <;> decide
  have hc := List.all_eq_true.1 hsymbols c (bare_subset spec base zeros n h)
  rwa [Bool.and_eq_true, Bool.not_eq_true', bne_iff_ne] at hc

theorem rdropWhile_append_blanks {cs : List Char} (h : ∀ c ∈ cs, isBlank c = false)
    (count : Nat) :
    (cs ++ List.replicate count ' ').rdropWhile isBlank = cs := by
  induction count with
  | zero =>
      rw [List.replicate_zero, List.append_nil, List.rdropWhile_eq_self_iff]
      intro hcs
      rw [h _ (List.getLast_mem hcs)]
      exact Bool.false_ne_true
  | succ count ih =>
      rw [List.replicate_succ', ← List.append_assoc, List.rdropWhile_concat_pos _ _ _ rfl, ih]

theorem trim_blanks {cs : List Char} (hne : cs ≠ []) (h : ∀ c ∈ cs, isBlank c = false)
    (left right : Nat) :
    trim (List.replicate left ' ' ++ cs ++ List.replicate right ' ') = cs := by
  have hleft : ∀ c ∈ List.replicate left ' ', isBlank c = true := by
    intro c hc
    rw [List.eq_of_mem_replicate hc]
    rfl
  rw [trim, List.append_assoc, List.dropWhile_append_of_pos hleft]
  obtain ⟨d, tail, rfl⟩ := List.exists_cons_of_ne_nil hne
  have hd : ¬ isBlank d = true := Bool.eq_false_iff.1 (h d List.mem_cons_self)
  rw [List.cons_append, List.dropWhile_cons_of_neg hd, ← List.cons_append,
    rdropWhile_append_blanks h]

end Members

end PackedSet
