import PackedSet.Proofs.EventLog
import Mathlib.Data.List.Induction

/-!
# What a numeral reads as

The bytes of a text after its mark decide what it reads as. Without bytes it is empty; a byte that
is no digit and no underscore makes it invalid, and the last such byte is reported; otherwise the
places of the ones, counted from the right without the underscores, are the members of a set with
a position for each byte. No place lies outside of it, so it never grows on the way.
-/

namespace PackedSet

theorem BitSet.wordCount_extend_of_lt (s : BitSet) {positions : List Nat}
    (h : ∀ n ∈ positions, n < s.capacity) : (s.extend positions).set.wordCount = s.wordCount := by
  have hreplay := s.replay_extend positions
  rw [s.events_extend_of_lt h] at hreplay
  exact (Option.some.inj hreplay).symm

namespace Numeral

def markBytes : List UInt8 := ['0', 'b'].map Char.toUInt8

def bytesAfterMark (text : String) : List UInt8 :=
  let bytes := text.toUTF8.data.toList
  if markBytes.isPrefixOf bytes then bytes.drop 2 else bytes

/-- A byte under `0x80` at the front is a whole character. -/
theorem utf8EncodeChar_eq_cons {c : Char} {b : UInt8} {rest : List UInt8}
    (h : String.utf8EncodeChar c = b :: rest) (hb : b.toNat < 0x80) :
    c = Char.ofUInt8 b ∧ rest = [] := by
  unfold String.utf8EncodeChar at h
  dsimp only at h
  split_ifs at h with h1 h2 h3
  · obtain ⟨rfl, rfl⟩ := List.cons.inj h
    refine ⟨Char.ext (UInt32.toNat_inj.1 ?_), rfl⟩
    change c.val.toNat = (UInt8.ofNat c.val.toNat).toUInt32.toNat
    rw [UInt8.toNat_toUInt32, UInt8.toNat_ofNat']
    omega
  all_goals
    obtain ⟨rfl, -⟩ := List.cons.inj h
    rw [UInt8.toNat_ofNat'] at hb
    omega

theorem exists_cons_of_flatMap_eq_cons {cs : List Char} {b : UInt8} {rest : List UInt8}
    (h : cs.flatMap String.utf8EncodeChar = b :: rest) (hb : b.toNat < 0x80) :
    ∃ cs', cs = Char.ofUInt8 b :: cs' ∧ cs'.flatMap String.utf8EncodeChar = rest := by
  cases cs with
  | nil => cases h
  | cons c cs' =>
      rw [List.flatMap_cons] at h
      cases hc : String.utf8EncodeChar c with
      | nil => exact absurd hc String.utf8EncodeChar_ne_nil
      | cons b' rest' =>
          rw [hc, List.cons_append] at h
          obtain ⟨rfl, hrest⟩ := List.cons.inj h
          obtain ⟨rfl, rfl⟩ := utf8EncodeChar_eq_cons hc hb
          exact ⟨cs', rfl, hrest⟩

/-- Bytes under `0x80` are one character each. -/
theorem eq_map_of_flatMap_eq {bytes : List UInt8} (hbytes : ∀ b ∈ bytes, b.toNat < 0x80)
    {cs : List Char} (h : cs.flatMap String.utf8EncodeChar = bytes) :
    cs = bytes.map Char.ofUInt8 := by
  induction bytes generalizing cs with
  | nil =>
      rw [List.flatMap_eq_nil_iff] at h
      exact List.eq_nil_iff_forall_not_mem.2 fun c hc => String.utf8EncodeChar_ne_nil (h c hc)
  | cons b rest ih =>
      obtain ⟨cs', rfl, hrest⟩ := exists_cons_of_flatMap_eq_cons h (hbytes b List.mem_cons_self)
      rw [List.map_cons, ih (fun c hc => hbytes c (List.mem_cons_of_mem b hc)) hrest]

theorem toList_toUTF8 (text : String) :
    text.toUTF8.data.toList = text.toList.flatMap String.utf8EncodeChar := by
  rw [String.toUTF8_eq_toByteArray, ← String.utf8Encode_toList]
  exact List.toList_data_toByteArray

theorem flatMap_dropMark (cs : List Char) :
    let bytes := cs.flatMap String.utf8EncodeChar
    (dropMark cs).flatMap String.utf8EncodeChar =
      if markBytes.isPrefixOf bytes then bytes.drop 2 else bytes := by
  intro bytes
  by_cases h : ∃ rest, cs = '0' :: 'b' :: rest
  · obtain ⟨rest, rfl⟩ := h
    rfl
  · have hmark : dropMark cs = cs := by
      unfold dropMark
      split
      · exact absurd ⟨_, rfl⟩ h
      · rfl
    have hprefix : ¬ markBytes.isPrefixOf bytes = true := by
      intro hp
      obtain ⟨rest, hrest⟩ := List.isPrefixOf_iff_prefix.1 hp
      obtain ⟨cs', rfl, hcs'⟩ := exists_cons_of_flatMap_eq_cons hrest.symm (by decide)
      obtain ⟨cs'', rfl, -⟩ := exists_cons_of_flatMap_eq_cons hcs' (by decide)
      exact h ⟨cs'', rfl⟩
    rw [hmark, if_neg hprefix]

theorem body_eq (text : String) : body text = bytesAfterMark text := by
  rw [body, flatMap_dropMark, bytesAfterMark, toList_toUTF8]

theorem lastFlaw?_concat (bytes : List UInt8) (b : UInt8) :
    lastFlaw? (bytes ++ [b]) =
      if isNumeralByte b = true then lastFlaw? bytes else some (b, bytes.length) := by
  rw [lastFlaw?, List.zipIdx_append, List.reverse_append, List.zipIdx_singleton, Nat.zero_add,
    List.reverse_singleton, List.singleton_append, List.find?_cons]
  cases hb : isNumeralByte b <;> simp only [hb] <;> rfl

theorem lastFlaw?_eq_none_iff {bytes : List UInt8} :
    lastFlaw? bytes = none ↔ ∀ b ∈ bytes, isNumeralByte b = true := by
  induction bytes using List.reverseRecOn with
  | nil => exact iff_of_true rfl fun b hb => absurd hb List.not_mem_nil
  | append_singleton bytes b ih =>
      rw [lastFlaw?_concat, List.forall_mem_append, List.forall_mem_singleton]
      by_cases hb : isNumeralByte b = true
      · rw [if_pos hb, ih, and_iff_left hb]
      · rw [if_neg hb]
        exact iff_of_false (Option.some_ne_none _) fun h => hb h.2

/-- A byte that does not belong into a numeral, with its offset, and none comes after it. -/
def IsLastFlaw (bytes : List UInt8) (b : UInt8) (offset : Nat) : Prop :=
  bytes[offset]? = some b ∧ isNumeralByte b = false ∧
    ∀ c ∈ bytes.drop (offset + 1), isNumeralByte c = true

theorem isLastFlaw_of_lastFlaw? {bytes : List UInt8} {b : UInt8} {offset : Nat}
    (h : lastFlaw? bytes = some (b, offset)) : IsLastFlaw bytes b offset := by
  induction bytes using List.reverseRecOn with
  | nil => cases h
  | append_singleton bytes c ih =>
      rw [lastFlaw?_concat] at h
      by_cases hc : isNumeralByte c = true
      · rw [if_pos hc] at h
        obtain ⟨hget, hb, hafter⟩ := ih h
        have hlt : offset < bytes.length := (List.getElem?_eq_some_iff.1 hget).1
        refine ⟨(List.getElem?_append_left hlt).trans hget, hb, ?_⟩
        rw [List.drop_append_of_le_length hlt, List.forall_mem_append, List.forall_mem_singleton]
        exact ⟨hafter, hc⟩
      · rw [if_neg hc] at h
        obtain ⟨rfl, rfl⟩ := Prod.mk.inj (Option.some.inj h)
        refine ⟨List.getElem?_concat_length, Bool.eq_false_iff.2 hc, ?_⟩
        rw [List.drop_eq_nil_of_le (by rw [List.length_append, List.length_singleton])]
        exact fun d hd => absurd hd List.not_mem_nil

theorem IsLastFlaw.le {bytes : List UInt8} {b b' : UInt8} {offset offset' : Nat}
    (h : IsLastFlaw bytes b offset) (h' : IsLastFlaw bytes b' offset') : offset' ≤ offset := by
  by_contra hlt
  have hmem : b' ∈ bytes.drop (offset + 1) := by
    refine List.mem_of_getElem? (i := offset' - (offset + 1)) ?_
    rw [List.getElem?_drop, Nat.add_sub_cancel' (Nat.not_le.1 hlt)]
    exact h'.1
  exact Bool.false_ne_true (h'.2.1.symm.trans (h.2.2 b' hmem))

theorem lastFlaw?_eq_some_iff {bytes : List UInt8} {b : UInt8} {offset : Nat} :
    lastFlaw? bytes = some (b, offset) ↔ IsLastFlaw bytes b offset := by
  refine ⟨isLastFlaw_of_lastFlaw?, fun h => ?_⟩
  cases hflaw : lastFlaw? bytes with
  | none =>
      have hb := lastFlaw?_eq_none_iff.1 hflaw b (List.mem_of_getElem? h.1)
      exact absurd (h.2.1.symm.trans hb) Bool.false_ne_true
  | some flaw =>
      obtain ⟨b', offset'⟩ := flaw
      have h' := isLastFlaw_of_lastFlaw? hflaw
      obtain rfl : offset' = offset := Nat.le_antisymm (h.le h') (h'.le h)
      rw [Option.some.inj (h'.1.symm.trans h.1)]

theorem mem_onePlaces_iff {bytes : List UInt8} {k : Nat} :
    k ∈ onePlaces bytes ↔ (digitsFromRight bytes)[k]? = some one := by
  rw [onePlaces, List.mem_map]
  constructor
  · rintro ⟨⟨b, i⟩, hb, rfl⟩
    obtain ⟨hmem, hone⟩ := List.mem_filter.1 hb
    rw [← beq_iff_eq.1 hone]
    exact List.mk_mem_zipIdx_iff_getElem?.1 hmem
  · intro h
    exact ⟨(one, k), List.mem_filter.2 ⟨List.mk_mem_zipIdx_iff_getElem?.2 h, rfl⟩, rfl⟩

/-- The set that is built while the places of a numeral go in: it never grows. -/
theorem extend_onePlaces {bytes : List UInt8} {front : List Nat}
    (h : ∀ n ∈ front, n ∈ onePlaces bytes) :
    let built := (BitSet.expandable bytes.length).extend front
    built.events = [] ∧ built.set.wordCount = (bytes.length + 31) / 32 := by
  have hroom : ∀ n ∈ front, n < (BitSet.expandable bytes.length).capacity := fun n hn =>
    Nat.lt_of_lt_of_le (lt_length_of_mem_onePlaces (h n hn)) (BitSet.le_capacity_blank _ true)
  exact ⟨BitSet.events_extend_of_lt _ hroom,
    (BitSet.wordCount_extend_of_lt _ hroom).trans (BitSet.wordCount_blank _ true)⟩

def alphabet : List UInt8 := ['0', '1', '_'].map Char.toUInt8

theorem mem_alphabet_iff {b : UInt8} : b ∈ alphabet ↔ b = zero ∨ b = one ∨ b = underscore :=
  List.mem_cons.trans (or_congr_right List.mem_pair)

theorem isNumeralByte_iff {b : UInt8} : isNumeralByte b = true ↔ b ∈ alphabet := by
  rw [mem_alphabet_iff]
  simp only [isNumeralByte, Bool.or_eq_true, beq_iff_eq, or_assoc]

theorem readBytes_of_flaw {bytes : List UInt8} {b : UInt8} {offset : Nat}
    (h : lastFlaw? bytes = some (b, offset)) :
    readBytes bytes = ⟨.error (.invalid (Char.ofUInt8 b) offset), []⟩ := by
  have hne : ¬ bytes.isEmpty = true := by
    rw [List.isEmpty_iff]
    rintro rfl
    cases h
  rw [readBytes, if_neg hne, h]

theorem readBytes_of_clean {bytes : List UInt8} (hne : bytes ≠ []) (h : lastFlaw? bytes = none) :
    readBytes bytes =
      let built := (BitSet.expandable bytes.length).extend (onePlaces bytes)
      ⟨.ok built.set, built.events⟩ := by
  rw [readBytes, if_neg (mt List.isEmpty_iff.1 hne), h]

theorem contains_extend_onePlaces (bytes : List UInt8) (k : Nat) :
    ((BitSet.expandable bytes.length).extend (onePlaces bytes)).set.contains k = true ↔
      (digitsFromRight bytes)[k]? = some one := by
  rw [BitSet.contains_extend _ (BitSet.extend_of_growable rfl _), ← mem_onePlaces_iff]
  simp [BitSet.expandable]

theorem readBytes_cases (bytes : List UInt8) :
    bytes = [] ∧ (readBytes bytes).result = .error .empty ∨
    (∃ b offset, lastFlaw? bytes = some (b, offset) ∧
      (readBytes bytes).result = .error (.invalid (Char.ofUInt8 b) offset)) ∨
    (bytes ≠ [] ∧ lastFlaw? bytes = none ∧ ∃ s, (readBytes bytes).result = .ok s) := by
  by_cases hnil : bytes = []
  · exact Or.inl ⟨hnil, hnil ▸ rfl⟩
  · cases hflaw : lastFlaw? bytes with
    | some flaw =>
        refine Or.inr (Or.inl ⟨flaw.1, flaw.2, rfl, ?_⟩)
        rw [readBytes_of_flaw hflaw]
    | none =>
        refine Or.inr (Or.inr ⟨hnil, rfl, ?_⟩)
        rw [readBytes_of_clean hnil hflaw]
        exact ⟨_, rfl⟩

theorem result_readBytes_eq_empty_iff {bytes : List UInt8} :
    (readBytes bytes).result = .error .empty ↔ bytes = [] := by
  rcases readBytes_cases bytes with ⟨hnil, hr⟩ | ⟨b, offset, hflaw, hr⟩ | ⟨hne, -, s, hr⟩
  · exact iff_of_true hr hnil
  · refine iff_of_false (fun h => by rw [hr] at h; cases h) ?_
    rintro rfl
    cases hflaw
  · exact iff_of_false (fun h => by rw [hr] at h; cases h) hne

theorem result_readBytes_eq_invalid_iff {bytes : List UInt8} {symbol : Char} {offset : Nat} :
    (readBytes bytes).result = .error (.invalid symbol offset) ↔
      ∃ b, lastFlaw? bytes = some (b, offset) ∧ symbol = Char.ofUInt8 b := by
  rcases readBytes_cases bytes with ⟨rfl, hr⟩ | ⟨b, offset', hflaw, hr⟩ | ⟨-, hflaw, s, hr⟩
  · refine iff_of_false (fun h => by rw [hr] at h; cases h) ?_
    rintro ⟨b, hb, -⟩
    cases hb
  · rw [hr, hflaw]
    constructor
    · intro h
      cases h
      exact ⟨b, rfl, rfl⟩
    · rintro ⟨b', hb', rfl⟩
      cases hb'
      rfl
  · refine iff_of_false (fun h => by rw [hr] at h; cases h) ?_
    rintro ⟨b, hb, -⟩
    rw [hflaw] at hb
    cases hb

theorem exists_invalid_iff {bytes : List UInt8} :
    (∃ symbol offset, (readBytes bytes).result = .error (.invalid symbol offset)) ↔
      ¬ lastFlaw? bytes = none := by
  rw [← ne_eq, Option.ne_none_iff_exists']
  simp only [result_readBytes_eq_invalid_iff]
  constructor
  · rintro ⟨_, offset, b, hflaw, -⟩
    exact ⟨(b, offset), hflaw⟩
  · rintro ⟨flaw, hflaw⟩
    exact ⟨_, flaw.2, flaw.1, hflaw, rfl⟩

theorem result_readBytes_eq_ok_iff {bytes : List UInt8} {s : BitSet} :
    (readBytes bytes).result = .ok s ↔ bytes ≠ [] ∧ lastFlaw? bytes = none ∧
      s = ((BitSet.expandable bytes.length).extend (onePlaces bytes)).set := by
  constructor
  · intro h
    rcases readBytes_cases bytes with ⟨-, hr⟩ | ⟨b, offset, -, hr⟩ | ⟨hne, hflaw, -⟩
    · rw [hr] at h
      cases h
    · rw [hr] at h
      cases h
    · rw [readBytes_of_clean hne hflaw] at h
      exact ⟨hne, hflaw, (Except.ok.inj h).symm⟩
  · rintro ⟨hne, hflaw, rfl⟩
    rw [readBytes_of_clean hne hflaw]

/-- Reading takes exactly the texts of its alphabet. It finds a text empty, or reports the last
byte outside the alphabet, or leaves a growable set with as many words as the bytes need, whose
members are the distances from the right, without underscores, at which a one stands. It never
grows a set, not even while only a part of the places is in. -/
theorem read_follows_grammar (text : String) :
    (read text).events = [] ∧
    let bytes := bytesAfterMark text
    let result := (read text).result
    (result = .error .empty ↔ bytes = []) ∧
    ((∃ symbol offset, result = .error (.invalid symbol offset)) ↔ ∃ b ∈ bytes, b ∉ alphabet) ∧
    (∀ symbol offset, result = .error (.invalid symbol offset) ↔
      ∃ b, bytes[offset]? = some b ∧ b ∉ alphabet ∧
        (∀ c ∈ bytes.drop (offset + 1), c ∈ alphabet) ∧ symbol = Char.ofUInt8 b) ∧
    ((∃ s, result = .ok s) ↔ bytes ≠ [] ∧ ∀ b ∈ bytes, b ∈ alphabet) ∧
    (∀ s, result = .ok s → s.growable = true ∧ s.wordCount = (bytes.length + 31) / 32 ∧
      ∀ k, s.contains k = true ↔
        (bytes.filter (· != '_'.toUInt8)).reverse[k]? = some '1'.toUInt8) ∧
    ∀ front, front <+: onePlaces bytes →
      let built := (BitSet.expandable bytes.length).extend front
      built.events = [] ∧ built.set.wordCount = (bytes.length + 31) / 32 := by
  refine ⟨events_read text, ?_⟩
  intro bytes result
  have hresult : result = (readBytes bytes).result :=
    congrArg (fun d => (readBytes d).result) (body_eq text)
  have hclean : lastFlaw? bytes = none ↔ ∀ b ∈ bytes, b ∈ alphabet := by
    rw [lastFlaw?_eq_none_iff]
    exact forall₂_congr fun b _ => isNumeralByte_iff
  rw [hresult]
  refine ⟨result_readBytes_eq_empty_iff, ?_, fun symbol offset => ?_, ?_, fun s hs => ?_,
    fun front hfront => extend_onePlaces fun n hn => hfront.subset hn⟩
  · rw [exists_invalid_iff, hclean]
    simp only [not_forall, exists_prop]
  · rw [result_readBytes_eq_invalid_iff]
    refine exists_congr fun b => ?_
    rw [lastFlaw?_eq_some_iff, IsLastFlaw, and_assoc, and_assoc, ← Bool.not_eq_true]
    simp only [isNumeralByte_iff]
  · rw [← hclean]
    simp only [result_readBytes_eq_ok_iff]
    exact ⟨fun ⟨s, hne, hnone, _⟩ => ⟨hne, hnone⟩, fun ⟨hne, hnone⟩ => ⟨_, hne, hnone, rfl⟩⟩
  · obtain ⟨-, -, rfl⟩ := result_readBytes_eq_ok_iff.1 hs
    refine ⟨BitSet.growable_extend _ _, (extend_onePlaces fun n hn => hn).2, fun k => ?_⟩
    rw [contains_extend_onePlaces, digitsFromRight, List.filter_reverse]
    rfl

/-- The underscore takes room, but no place. -/
theorem read_follows_grammar_underscore :
    let s : BitSet := ⟨#[1], true⟩
    (read "0b1_").result = .ok s ∧ s.wordCount = ((bytesAfterMark "0b1_").length + 31) / 32 ∧
      (s.contains 0 = true ↔
        ((bytesAfterMark "0b1_").filter (· != '_'.toUInt8)).reverse[0]? = some '1'.toUInt8) := by
  intro s
  have h : (read "0b1_").result = .ok s := by decide +kernel
  obtain ⟨-, -, -, -, -, hok, -⟩ := read_follows_grammar "0b1_"
  obtain ⟨-, hcount, hplaces⟩ := hok s h
  exact ⟨h, hcount, hplaces 0⟩

end Numeral

end PackedSet
