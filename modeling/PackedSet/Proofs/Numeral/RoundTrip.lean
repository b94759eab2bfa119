import PackedSet.Proofs.Numeral.Digits
import PackedSet.Proofs.Numeral.Reading

/-!
# Writing and reading

A numeral that is written reads as a set with the same members, in no more words than it needs. A
text that can be read is written again in its canonical form, without mark, underscores and leading
zeros. Both rest on one row of digits: what is read is, place by place, what is written.
-/

namespace PackedSet.Numeral

def digitByte (b : Bool) : UInt8 := if b then one else zero

/-- A text as it is written for the set that it reads as. -/
def canonical (text : String) : String :=
  String.ofList (trim ((dropMark text.toList).filter (· != '_')))

theorem dropMark_of_not_mem {cs : List Char} (h : 'b' ∉ cs) : dropMark cs = cs := by
  unfold dropMark
  split
  · exact absurd (List.mem_cons_of_mem _ List.mem_cons_self) h
  · rfl

theorem digit_ne_b (b : Bool) : digit b ≠ 'b' := by
  cases b <;> decide

theorem dropMark_write (marked : Bool) (s : BitSet) : dropMark (write marked s) = digits s := by
  cases marked with
  | true => rfl
  | false =>
      obtain ⟨top, hdigits, -⟩ := exists_top s
      refine dropMark_of_not_mem fun hmem => ?_
      rw [write, if_neg Bool.false_ne_true, List.nil_append, hdigits] at hmem
      obtain ⟨i, -, hi⟩ := List.mem_map.1 hmem
      exact digit_ne_b _ hi

theorem utf8EncodeChar_digit (b : Bool) : String.utf8EncodeChar (digit b) = [digitByte b] := by
  cases b <;> rfl

theorem flatMap_digitsBelow (f : Nat → Bool) (n : Nat) :
    (digitsBelow f n).flatMap String.utf8EncodeChar =
      (List.range n).reverse.map fun i => digitByte (f i) := by
  rw [digitsBelow, List.flatMap_map]
  simp only [utf8EncodeChar_digit]
  exact List.flatMap_pure_eq_map _ _

section row

variable (f : Nat → Bool) (n : Nat)

def row : List UInt8 := (List.range n).reverse.map fun i => digitByte (f i)

theorem length_row : (row f n).length = n := by
  rw [row, List.length_map, List.length_reverse, List.length_range]

theorem lastFlaw?_row : lastFlaw? (row f n) = none := by
  rw [lastFlaw?_eq_none_iff]
  intro b hb
  obtain ⟨i, -, rfl⟩ := List.mem_map.1 hb
  cases f i <;> rfl

theorem digitsFromRight_row : digitsFromRight (row f n) =
    (List.range n).map fun i => digitByte (f i) := by
  rw [digitsFromRight, row, ← List.map_reverse, List.reverse_reverse, List.filter_eq_self]
  intro b hb
  obtain ⟨i, -, rfl⟩ := List.mem_map.1 hb
  cases f i <;> rfl

theorem getElem?_digitsFromRight_row (k : Nat) :
    (digitsFromRight (row f n))[k]? = some one ↔ k < n ∧ f k = true := by
  rw [digitsFromRight_row, List.getElem?_map]
  by_cases hk : k < n
  · rw [List.getElem?_range hk, Option.map_some, Option.some_inj, and_iff_right hk]
    cases f k <;> decide
  · rw [List.getElem?_eq_none (by rw [List.length_range]; omega)]
    exact iff_of_false (fun h => by cases h) fun h => hk h.1

end row

theorem body_format (s : BitSet) (spec : FormatSpec) :
    ∃ top, body (s.format { spec with style := .numeral }) = row s.contains (top + 1) ∧
      (∀ n ∈ s, n ≤ top) ∧ wordIndex top + 1 = max 1 s.extent := by
  obtain ⟨top, hdigits, htop, hextent⟩ := exists_top s
  refine ⟨top, ?_, htop, hextent⟩
  rw [body, BitSet.format, String.toList_ofList, dropMark_write, hdigits, flatMap_digitsBelow]
  rfl

/-- A written numeral reads as a growable set with the same members and no superfluous word. -/
theorem read_format (s : BitSet) (spec : FormatSpec) :
    ∃ t, (read (s.format { spec with style := .numeral })).result = .ok t ∧
      (∀ n, t.contains n = s.contains n) ∧ t.growable = true ∧ t.wordCount = max 1 s.extent := by
  obtain ⟨top, hbody, htop, hextent⟩ := body_format s spec
  have hne : row s.contains (top + 1) ≠ [] :=
    List.ne_nil_of_length_pos (by rw [length_row]; exact Nat.succ_pos top)
  refine ⟨((BitSet.expandable (top + 1)).extend (onePlaces (row s.contains (top + 1)))).set,
    ?_, fun n => ?_, BitSet.growable_extend _ _, ?_⟩
  · rw [read, hbody, result_readBytes_eq_ok_iff, length_row]
    exact ⟨hne, lastFlaw?_row _ _, rfl⟩
  · have hcontains := contains_extend_onePlaces (row s.contains (top + 1)) n
    rw [length_row, getElem?_digitsFromRight_row] at hcontains
    rw [Bool.eq_iff_iff, hcontains]
    exact ⟨fun h => h.2, fun h => ⟨Nat.lt_succ_of_le (htop n h), h⟩⟩
  · have hplaces : ∀ n ∈ onePlaces (row s.contains (top + 1)),
        n ∈ onePlaces (row s.contains (top + 1)) := fun _ hn => hn
    have hcount := (extend_onePlaces hplaces).2
    rw [length_row] at hcount
    rw [hcount, ← hextent, wordIndex, Word.width]
    omega

theorem ofUInt8_ne_underscore (b : UInt8) :
    (Char.ofUInt8 b != '_') = (b != underscore) := by
  have hinj : Char.ofUInt8 b = '_' ↔ b = underscore := by
    rw [← UInt8.toNat_inj, ← Char.toNat_inj]
    rfl
  rw [Bool.eq_iff_iff, bne_iff_ne, bne_iff_ne, ne_eq, hinj]

theorem lt_of_mem_alphabet {b : UInt8} (h : b ∈ alphabet) : b.toNat < 0x80 := by
  obtain rfl | rfl | rfl := mem_alphabet_iff.1 h <;> decide

/-- Of a byte of the alphabet that is no underscore, the character is the digit. -/
theorem ofUInt8_eq_digit {b : UInt8} (h : b ∈ alphabet) (hb : b ≠ underscore) :
    Char.ofUInt8 b = digit (decide (b = one)) := by
  obtain rfl | rfl | rfl := mem_alphabet_iff.1 h
  · rfl
  · rfl
  · exact absurd rfl hb

/-- Digits of which those from the right are the places of a set are the row of its digits. -/
theorem map_ofUInt8_eq_digitsBelow {ds : List UInt8} {f : Nat → Bool}
    (hds : ∀ b ∈ ds, Char.ofUInt8 b = digit (decide (b = one)))
    (hf : ∀ k, f k = true ↔ ds.reverse[k]? = some one) :
    ds.map Char.ofUInt8 = digitsBelow f ds.length := by
  rw [← List.reverse_inj, digitsBelow, ← List.map_reverse, ← List.map_reverse, List.reverse_reverse]
  refine List.ext_getElem (by simp) fun i hi _ => ?_
  have hi' : i < ds.reverse.length := by rwa [List.length_map] at hi
  rw [List.getElem_map, List.getElem_map, List.getElem_range,
    hds _ (List.mem_reverse.1 (List.getElem_mem hi'))]
  congr 1
  rw [Bool.eq_iff_iff, hf, decide_eq_true_eq, List.getElem?_eq_getElem hi', Option.some_inj]

theorem filter_dropMark {text : String} (h : ∀ b ∈ body text, b ∈ alphabet) :
    (dropMark text.toList).filter (· != '_') =
      ((body text).filter (· != underscore)).map Char.ofUInt8 := by
  have hchars : dropMark text.toList = (body text).map Char.ofUInt8 :=
    eq_map_of_flatMap_eq (fun b hb => lt_of_mem_alphabet (h b hb)) rfl
  rw [hchars, List.filter_map]
  congr 1
  exact List.filter_congr fun b _ => ofUInt8_ne_underscore b

/-- What is read is written in canonical form. -/
theorem format_of_read {text : String} {s : BitSet} (h : (read text).result = .ok s) :
    s.format .plain = canonical text := by
  obtain ⟨-, hclean, hs⟩ := result_readBytes_eq_ok_iff.1 h
  have halphabet : ∀ b ∈ body text, b ∈ alphabet := fun b hb =>
    isNumeralByte_iff.1 (lastFlaw?_eq_none_iff.1 hclean b hb)
  have hdigit : ∀ b ∈ (body text).filter (· != underscore),
      Char.ofUInt8 b = digit (decide (b = one)) := by
    intro b hb
    obtain ⟨hmem, hne⟩ := List.mem_filter.1 hb
    exact ofUInt8_eq_digit (halphabet b hmem) (bne_iff_ne.1 hne)
  have hplaces : ∀ k, s.contains k = true ↔
      ((body text).filter (· != underscore)).reverse[k]? = some one := by
    intro k
    rw [hs, contains_extend_onePlaces, digitsFromRight, List.filter_reverse]
  have hlt : ∀ k ∈ s, k < ((body text).filter (· != underscore)).length := by
    intro k hk
    obtain ⟨hi, -⟩ := List.getElem?_eq_some_iff.1 ((hplaces k).1 hk)
    rwa [List.length_reverse] at hi
  rw [canonical, filter_dropMark halphabet, map_ofUInt8_eq_digitsBelow hdigit hplaces,
    ← digits_eq_trim_of_lt s hlt]
  rfl

/-- Written with any flags, a set reads back as a growable set that compares equal, in as many
words as are significant but at least one, and is written the same again. A text that can be read
is written again in its canonical form. -/
theorem numeral_round_trip :
    (∀ (s : BitSet) (spec : FormatSpec),
      let numeral : FormatSpec := { spec with style := .numeral }
      ∃ t, (read (s.format numeral)).result = .ok t ∧ t.sameMembers s = true ∧
        t.growable = true ∧ t.wordCount = max 1 s.significant.length ∧
        t.format numeral = s.format numeral) ∧
    ∀ (text : String) (s : BitSet), (read text).result = .ok s →
      s.format .plain = canonical text := by
  refine ⟨?_, fun text s h => format_of_read h⟩
  intro s spec numeral
  obtain ⟨t, hread, hcontains, hgrowable, hcount⟩ := read_format s spec
  refine ⟨t, hread, BitSet.sameMembers_iff.2 hcontains, hgrowable, ?_, ?_⟩
  · rw [hcount, BitSet.length_significant]
  · rw [BitSet.format, BitSet.format]
    dsimp only [numeral]
    rw [write, write, digits, digits, BitSet.significant_eq_iff.2 hcontains]

theorem numeral_round_trip_underscores :
    let s : BitSet := ⟨#[5], true⟩
    (read "0b0_1_01").result = .ok s ∧ s.format .plain = "101" := by
  intro s
  have h : (read "0b0_1_01").result = .ok s := by decide +kernel
  have hcanonical : canonical "0b0_1_01" = "101" := by decide +kernel
  exact ⟨h, (numeral_round_trip.2 _ s h).trans hcanonical⟩

end PackedSet.Numeral
