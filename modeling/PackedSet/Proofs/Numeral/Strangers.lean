import PackedSet.Proofs.Numeral.RoundTrip

/-!
# The character that is reported

A text that is no numeral has a last character that does not belong into one. What is reported is
the last byte of this character, taken for a character, and the offset of that byte. A character of
one byte is reported as it stands in the text; of a longer one, neither the character nor the
offset at which it begins is.
-/

namespace PackedSet.Numeral

def symbols : List Char := ['0', '1', '_']

def afterMark (text : String) : List Char :=
  let cs := text.toList
  if mark <+: cs then cs.drop 2 else cs

/-- The last of the characters that does not belong into a numeral, with the number of bytes in
front of it. -/
def IsLastStranger (cs : List Char) (c : Char) (start : Nat) : Prop :=
  ∃ front back, cs = front ++ c :: back ∧ start = (String.ofList front).utf8ByteSize ∧
    c ∉ symbols ∧ ∀ d ∈ back, d ∈ symbols

def lastByte (c : Char) : UInt8 := (String.utf8EncodeChar c).getLast String.utf8EncodeChar_ne_nil

theorem afterMark_eq_dropMark (text : String) : afterMark text = dropMark text.toList := by
  unfold afterMark dropMark
  split
  · rename_i rest htext
    rw [htext]
    exact if_pos ⟨rest, rfl⟩
  · rename_i hother
    refine if_neg ?_
    rintro ⟨rest, htext⟩
    exact hother rest htext.symm

theorem utf8EncodeChar_eq_append (c : Char) :
    String.utf8EncodeChar c = (String.utf8EncodeChar c).dropLast ++ [lastByte c] :=
  (List.dropLast_append_getLast String.utf8EncodeChar_ne_nil).symm

theorem utf8Size_eq_one_iff {c : Char} : c.utf8Size = 1 ↔ c.toNat < 0x80 := by
  rw [Char.utf8Size_eq_one_iff, UInt32.le_iff_toNat_le]
  exact Nat.lt_succ_iff.symm

theorem utf8EncodeChar_of_lt {c : Char} (h : c.toNat < 0x80) :
    String.utf8EncodeChar c = [c.toUInt8] :=
  String.utf8EncodeChar_eq_singleton (utf8Size_eq_one_iff.2 h)

theorem lastByte_of_lt {c : Char} (h : c.toNat < 0x80) : lastByte c = c.toUInt8 := by
  simp only [lastByte, utf8EncodeChar_of_lt h, List.getLast_singleton]

/-- The last byte of a longer character is none of a shorter one. -/
theorem le_lastByte {c : Char} (h : 0x80 ≤ c.toNat) : 0x80 ≤ (lastByte c).toNat := by
  have hval : ¬ c.val.toNat ≤ 127 := Nat.not_le.2 h
  have hbyte : 0x80 ≤ (UInt8.ofNat (c.val.toNat % 64 + 128)).toNat := by
    rw [UInt8.toNat_ofNat']
    omega
  simp only [lastByte, String.utf8EncodeChar, if_neg hval]
  split_ifs <;> exact hbyte

theorem toNat_lastByte_lt_iff {c : Char} : (lastByte c).toNat < 0x80 ↔ c.toNat < 0x80 := by
  constructor
  · intro hbyte
    by_contra hc
    exact Nat.not_le.2 hbyte (le_lastByte (Nat.not_lt.1 hc))
  · intro hc
    rw [lastByte_of_lt hc]
    change (UInt8.ofNat c.toNat).toNat < 0x80
    rw [UInt8.toNat_ofNat']
    omega

theorem ofUInt8_lastByte {c : Char} (h : c.toNat < 0x80) : Char.ofUInt8 (lastByte c) = c := by
  have hbytes : String.utf8EncodeChar c = [lastByte c] := by
    rw [lastByte_of_lt h, utf8EncodeChar_of_lt h]
  exact (utf8EncodeChar_eq_cons hbytes (toNat_lastByte_lt_iff.2 h)).1.symm

theorem lt_of_mem_symbols {c : Char} (h : c ∈ symbols) : c.toNat < 0x80 := by
  rw [symbols, List.mem_cons, List.mem_pair] at h
  rcases h with rfl | rfl | rfl <;> decide

theorem isNumeralByte_lastByte_iff {c : Char} : isNumeralByte (lastByte c) = true ↔ c ∈ symbols := by
  have hmap : alphabet = symbols.map lastByte := rfl
  rw [isNumeralByte_iff, hmap, List.mem_map]
  constructor
  · rintro ⟨d, hd, hbyte⟩
    have hlt := lt_of_mem_symbols hd
    have hc : c.toNat < 0x80 := toNat_lastByte_lt_iff.1 (hbyte ▸ toNat_lastByte_lt_iff.2 hlt)
    rwa [← ofUInt8_lastByte hc, ← hbyte, ofUInt8_lastByte hlt]
  · exact fun hc => ⟨c, hc, rfl⟩

theorem length_flatMap_utf8EncodeChar (cs : List Char) :
    (cs.flatMap String.utf8EncodeChar).length = (String.ofList cs).utf8ByteSize := by
  induction cs with
  | nil => rfl
  | cons c cs ih =>
      rw [List.flatMap_cons, List.length_append, ih, String.length_utf8EncodeChar]
      simp

theorem lastFlaw?_flatMap_concat (cs : List Char) (c : Char) :
    lastFlaw? ((cs ++ [c]).flatMap String.utf8EncodeChar) =
      if c ∈ symbols then lastFlaw? (cs.flatMap String.utf8EncodeChar)
      else some (lastByte c, (String.ofList cs).utf8ByteSize + (c.utf8Size - 1)) := by
  rw [List.flatMap_append, List.flatMap_singleton, utf8EncodeChar_eq_append, ← List.append_assoc,
    lastFlaw?_concat, List.length_append, length_flatMap_utf8EncodeChar, List.length_dropLast,
    String.length_utf8EncodeChar]
  by_cases hc : c ∈ symbols
  · have hnil : (String.utf8EncodeChar c).dropLast = [] := by
      rw [utf8EncodeChar_of_lt (lt_of_mem_symbols hc), List.dropLast_singleton]
    rw [if_pos (isNumeralByte_lastByte_iff.2 hc), if_pos hc, hnil, List.append_nil]
  · rw [if_neg (mt isNumeralByte_lastByte_iff.1 hc), if_neg hc]

theorem isLastStranger_concat_iff {cs : List Char} {c d : Char} {start : Nat} :
    IsLastStranger (cs ++ [d]) c start ↔
      if d ∈ symbols then IsLastStranger cs c start
      else c = d ∧ start = (String.ofList cs).utf8ByteSize := by
  constructor
  · rintro ⟨front, back, hcs, hstart, hc, hback⟩
    rcases List.eq_nil_or_concat' back with rfl | ⟨rest, e, rfl⟩
    · obtain ⟨rfl, hd⟩ := List.append_inj' hcs rfl
      obtain rfl := List.singleton_injective hd
      rw [if_neg hc]
      exact ⟨rfl, hstart⟩
    · rw [← List.cons_append, ← List.append_assoc] at hcs
      obtain ⟨rfl, hd⟩ := List.append_inj' hcs rfl
      obtain rfl := List.singleton_injective hd
      obtain ⟨hrest, hd⟩ := List.forall_mem_append.1 hback
      rw [if_pos (hd d List.mem_cons_self)]
      exact ⟨front, rest, rfl, hstart, hc, hrest⟩
  · by_cases hd : d ∈ symbols
    · rw [if_pos hd]
      rintro ⟨front, back, rfl, hstart, hc, hback⟩
      refine ⟨front, back ++ [d], by rw [List.append_assoc, List.cons_append], hstart, hc, ?_⟩
      exact List.forall_mem_append.2 ⟨hback, List.forall_mem_singleton.2 hd⟩
    · rw [if_neg hd]
      rintro ⟨rfl, hstart⟩
      exact ⟨cs, [], rfl, hstart, hd, fun e he => absurd he List.not_mem_nil⟩

theorem not_isLastStranger_nil {c : Char} {start : Nat} : ¬ IsLastStranger [] c start := by
  rintro ⟨front, back, hcs, -⟩
  exact List.append_ne_nil_of_right_ne_nil front (List.cons_ne_nil c back) hcs.symm

theorem IsLastStranger.unique {cs : List Char} {c d : Char} {start start' : Nat}
    (h : IsLastStranger cs c start) (h' : IsLastStranger cs d start') : c = d ∧ start = start' := by
  induction cs using List.reverseRecOn with
  | nil => exact absurd h not_isLastStranger_nil
  | append_singleton cs e ih =>
      rw [isLastStranger_concat_iff] at h h'
      by_cases he : e ∈ symbols
      · rw [if_pos he] at h h'
        exact ih h h'
      · rw [if_neg he] at h h'
        exact ⟨h.1.trans h'.1.symm, h.2.trans h'.2.symm⟩

/-- The last byte that does not belong into a numeral ends the last such character. -/
theorem lastFlaw?_flatMap_eq_some_iff {cs : List Char} {b : UInt8} {offset : Nat} :
    lastFlaw? (cs.flatMap String.utf8EncodeChar) = some (b, offset) ↔
      ∃ c start, IsLastStranger cs c start ∧ b = lastByte c ∧ offset + 1 = start + c.utf8Size := by
  induction cs using List.reverseRecOn with
  | nil => exact iff_of_false nofun fun ⟨c, start, hlast, _⟩ => not_isLastStranger_nil hlast
  | append_singleton cs d ih =>
      simp only [lastFlaw?_flatMap_concat, isLastStranger_concat_iff]
      by_cases hd : d ∈ symbols
      · simp only [if_pos hd]
        exact ih
      · have hsize := d.utf8Size_pos
        simp only [if_neg hd, Option.some_inj, Prod.mk.injEq]
        constructor
        · rintro ⟨rfl, rfl⟩
          exact ⟨d, _, ⟨rfl, rfl⟩, rfl, by omega⟩
        · rintro ⟨c, start, ⟨rfl, rfl⟩, rfl, hoffset⟩
          exact ⟨rfl, by omega⟩

theorem result_read_eq_invalid_iff {text : String} {symbol : Char} {offset : Nat} :
    (read text).result = .error (.invalid symbol offset) ↔
      ∃ c start, IsLastStranger (afterMark text) c start ∧ symbol = Char.ofUInt8 (lastByte c) ∧
        offset + 1 = start + c.utf8Size := by
  rw [read, result_readBytes_eq_invalid_iff, body, ← afterMark_eq_dropMark]
  simp only [lastFlaw?_flatMap_eq_some_iff]
  constructor
  · rintro ⟨b, ⟨c, start, hlast, rfl, hoffset⟩, hsymbol⟩
    exact ⟨c, start, hlast, hsymbol, hoffset⟩
  · rintro ⟨c, start, hlast, hsymbol, hoffset⟩
    exact ⟨lastByte c, ⟨c, start, hlast, rfl, hoffset⟩, hsymbol⟩

theorem toNat_ofUInt8 (b : UInt8) : (Char.ofUInt8 b).toNat = b.toNat := rfl

/-- A report names the character that is meant exactly if that is a character of one byte. -/
theorem isLastStranger_iff_of_invalid {text : String} {symbol : Char} {offset : Nat}
    (h : (read text).result = .error (.invalid symbol offset)) :
    IsLastStranger (afterMark text) symbol offset ↔ symbol.toNat < 0x80 := by
  obtain ⟨c, start, hlast, rfl, hoffset⟩ := result_read_eq_invalid_iff.1 h
  rw [toNat_ofUInt8, toNat_lastByte_lt_iff]
  constructor
  · intro hreport
    obtain ⟨hc, rfl⟩ := hreport.unique hlast
    exact utf8Size_eq_one_iff.1 (by omega)
  · intro hc
    have hsize := utf8Size_eq_one_iff.2 hc
    obtain rfl : offset = start := by omega
    rwa [ofUInt8_lastByte hc]

/-- A report gives the last byte of the last character that does not belong into a numeral, with the
offset of that byte, and there is one whenever a text has such a character. It names this character
and the offset at which it begins exactly if the reported symbol has one byte. -/
theorem report_ends_last_stranger (text : String) :
    (∀ symbol offset, (read text).result = .error (.invalid symbol offset) ↔
      ∃ c start, IsLastStranger (afterMark text) c start ∧ symbol = Char.ofUInt8 (lastByte c) ∧
        offset + 1 = start + c.utf8Size) ∧
    ∀ symbol offset, (read text).result = .error (.invalid symbol offset) →
      (IsLastStranger (afterMark text) symbol offset ↔ symbol.toNat < 0x80) :=
  ⟨fun _ _ => result_read_eq_invalid_iff, fun _ _ => isLastStranger_iff_of_invalid⟩

/-- Of the two strangers the last one is reported, which has one byte. -/
theorem report_ends_last_stranger_of_one_byte :
    (read "0b1é0x_").result = .error (.invalid 'x' 4) ∧
      IsLastStranger (afterMark "0b1é0x_") 'x' 4 := by
  have h : (read "0b1é0x_").result = .error (.invalid 'x' 4) := by decide +kernel
  exact ⟨h, ((report_ends_last_stranger "0b1é0x_").2 'x' 4 h).2 (by decide)⟩

/-- The only character of a text is a stranger of two bytes. What is reported is another character,
at an offset inside of this one. -/
theorem report_names_no_character :
    (read "é").result = .error (.invalid '©' 1) ∧ ¬ IsLastStranger (afterMark "é") '©' 1 ∧
      IsLastStranger (afterMark "é") 'é' 0 := by
  have hmark : afterMark "é" = ['é'] := by decide +kernel
  have hlast : IsLastStranger (afterMark "é") 'é' 0 := by
    rw [hmark]
    exact ⟨[], [], rfl, rfl, by decide, fun d hd => absurd hd List.not_mem_nil⟩
  refine ⟨by decide +kernel, fun hreport => ?_, hlast⟩
  exact absurd (hreport.unique hlast).1 (by decide)

end PackedSet.Numeral
