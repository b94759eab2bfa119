import PackedSet.Text.Format
import PackedSet.Proofs.Cursor.Ahead
import PackedSet.Proofs.Members.Entry

/-!
# Reading lists of members

A list of members is read back by one rule for all forms: drop the braces, split at the commas, drop
the blanks around each piece and take the number of what is left. This gives the members in
increasing order. So in each form the text of a set tells its members and nothing else.
-/

namespace PackedSet.Members

/-- What stands between the separators, without the blanks around it. A piece of blanks, such as the
one behind the last separator of the alternate form, is no entry. -/
def entries (cs : List Char) : List (List Char) :=
  ((cs.splitOn ',').map trim).filter fun piece => !piece.isEmpty

def values? (base : Base) (cs : List Char) : Option (List Nat) :=
  (entries cs).mapM (entryValue? base)

def read? (base : Base) (text : String) : Option (List Nat) :=
  match text.toList with
  | [] => none
  | c :: rest =>
      if c = openBrace ∧ rest.getLast? = some closeBrace then values? base rest.dropLast else none

theorem entries_append_comma (front rest : List Char) :
    entries (front ++ ',' :: rest) = entries front ++ entries rest := by
  rw [entries, List.splitOn_append_cons_self, List.map_append, List.filter_append]
  rfl

theorem trim_cons_of_isBlank {c : Char} (h : isBlank c = true) (cs : List Char) :
    trim (c :: cs) = trim cs := by
  rw [trim, List.dropWhile_cons_of_pos h, trim]

theorem entries_cons_of_isBlank {c : Char} (h : isBlank c = true) (cs : List Char) :
    entries (c :: cs) = entries cs := by
  have hc : ¬ (c == ',') = true := by
    intro hcomma
    rw [eq_of_beq hcomma] at h
    revert h
    decide
  obtain ⟨piece, pieces, hsplit⟩ := List.exists_cons_of_ne_nil (List.splitOn_ne_nil ',' cs)
  rw [entries, entries, List.splitOn_cons_eq_if_modifyHead, if_neg hc, hsplit,
    List.modifyHead_cons, List.map_cons, List.map_cons, trim_cons_of_isBlank h]

theorem values?_cons_of_isBlank (base : Base) {c : Char} (h : isBlank c = true) (cs : List Char) :
    values? base (c :: cs) = values? base cs := by
  rw [values?, entries_cons_of_isBlank h, values?]

section

variable (spec : FormatSpec) (base : Base) (hfill : spec.fill = ' ')
include hfill

theorem entries_entry (n : Nat) :
    ∃ zeros, entries (entry spec base n) = [bare spec base zeros n] := by
  obtain ⟨left, zeros, right, hentry⟩ := exists_entry_eq spec base hfill n
  have hinside : ∀ c ∈ bare spec base zeros n, isBlank c = false ∧ c ≠ ',' :=
    fun c hc => not_isBlank_of_mem_bare spec base hc
  have hcomma : ',' ∉ entry spec base n := by
    have hblanks : ∀ count, ',' ∉ List.replicate count ' ' := fun count hc =>
      absurd (List.eq_of_mem_replicate hc) (by decide)
    rw [hentry, List.mem_append, List.mem_append, not_or, not_or]
    exact ⟨⟨hblanks left, fun hc => (hinside _ hc).2 rfl⟩, hblanks right⟩
  have hne : (bare spec base zeros n).isEmpty = false :=
    List.isEmpty_eq_false_iff.2 (bare_ne_nil spec base zeros n)
  refine ⟨zeros, ?_⟩
  rw [entries, List.splitOn_eq_singleton hcomma, List.map_singleton, hentry,
    trim_blanks (bare_ne_nil spec base zeros n) fun c hc => (hinside c hc).1,
    List.filter_cons_of_pos (by rw [hne]; rfl), List.filter_nil]

theorem values?_entry (n : Nat) : values? base (entry spec base n) = some [n] := by
  obtain ⟨zeros, hentry⟩ := entries_entry spec base hfill n
  rw [values?, hentry, List.mapM_cons, entryValue?_bare]
  rfl

theorem values?_entry_append_comma (n : Nat) (rest : List Char) :
    values? base (entry spec base n ++ ',' :: rest) = (values? base rest).map (n :: ·) := by
  obtain ⟨zeros, hentry⟩ := entries_entry spec base hfill n
  rw [values?, entries_append_comma, hentry, List.singleton_append, List.mapM_cons,
    entryValue?_bare, values?]
  cases (entries rest).mapM (entryValue? base) <;> rfl

theorem values?_intercalate (ns : List Nat) :
    values? base ([',', ' '].intercalate (ns.map (entry spec base))) = some ns := by
  induction ns with
  | nil => rfl
  | cons n rest ih =>
      cases rest with
      | nil =>
          rw [List.map_singleton, List.intercalate_singleton]
          exact values?_entry spec base hfill n
      | cons m rest =>
          rw [List.map_cons, List.map_cons, List.intercalate_cons_cons, List.append_assoc,
            List.cons_append, List.singleton_append, values?_entry_append_comma spec base hfill,
            values?_cons_of_isBlank base rfl, ← List.map_cons, ih]
          rfl

theorem values?_lines (ns : List Nat) :
    values? base ((ns.map (entry spec base)).flatMap line) = some ns := by
  induction ns with
  | nil => rfl
  | cons n rest ih =>
      have hline : ((n :: rest).map (entry spec base)).flatMap line =
          ' ' :: ' ' :: ' ' :: ' ' :: (entry spec base n ++
            ',' :: '\n' :: (rest.map (entry spec base)).flatMap line) := by
        simp [line]
      have hblank : isBlank ' ' = true := rfl
      rw [hline]
      iterate 4 rw [values?_cons_of_isBlank base hblank]
      rw [values?_entry_append_comma spec base hfill, values?_cons_of_isBlank base rfl, ih]
      rfl

theorem values?_inner (ns : List Nat) :
    values? base (inner spec.alternate (ns.map (entry spec base))) = some ns := by
  cases spec.alternate with
  | false => exact values?_intercalate spec base hfill ns
  | true =>
      cases ns with
      | nil => rfl
      | cons n rest =>
          rw [List.map_cons]
          exact (values?_cons_of_isBlank base rfl _).trans (values?_lines spec base hfill (n :: rest))

theorem read?_write (ns : List Nat) :
    read? base (String.ofList (write spec base ns)) = some ns := by
  rw [read?, String.toList_ofList, write]
  dsimp only [List.cons_append]
  rw [List.getLast?_concat, if_pos ⟨rfl, rfl⟩, List.dropLast_concat]
  exact values?_inner spec base hfill ns

/-- Only the empty list is written without anything between the braces. -/
theorem write_eq_braces_iff {ns : List Nat} :
    write spec base ns = [openBrace, closeBrace] ↔ ns = [] := by
  constructor
  · intro hwrite
    have hread := read?_write spec base hfill ns
    rw [hwrite] at hread
    exact (Option.some.inj hread).symm
  · rintro rfl
    rw [write]
    cases spec.alternate <;> rfl

end

/-- Whatever its width, its alignment and its flags, a list of members with blanks for its padding
is read back as the members in increasing order, each of them once; they are what a cursor gives.
The empty set is a pair of braces in every form, and no other set is. So in each form two sets are
written the same exactly if they compare equal. -/
theorem listing_tells_members (s : BitSet) (spec : FormatSpec) (base : Base) :
    let form : FormatSpec := { spec with fill := ' ', style := .members base }
    read? base (s.format form) = some s.cursor.rest.1 ∧
    s.cursor.rest.1.Pairwise (· < ·) ∧ (∀ n, n ∈ s.cursor.rest.1 ↔ s.contains n = true) ∧
    (s.format form = "\x7b\x7d" ↔ ∀ n, n ∉ s) ∧
    ∀ t : BitSet, s.format form = t.format form ↔ s.sameMembers t = true := by
  intro form
  have hformat : ∀ t : BitSet, t.format form = String.ofList (write form base t.toList) :=
    fun t => rfl
  have hread : ∀ t : BitSet, read? base (t.format form) = some t.toList := fun t =>
    read?_write form base rfl t.toList
  rw [Cursor.rest_cursor]
  refine ⟨hread s, s.pairwise_toList, fun n => s.mem_toList, ?_, fun t => ?_⟩
  · have hbraces : "\x7b\x7d" = String.ofList [openBrace, closeBrace] := rfl
    rw [hformat, hbraces, String.ofList_inj, write_eq_braces_iff form base rfl,
      List.eq_nil_iff_forall_not_mem]
    simp only [BitSet.mem_toList]
  · rw [← BitSet.toList_eq_iff]
    constructor
    · intro htext
      exact Option.some.inj (by rw [← hread, htext, hread])
    · intro hlists
      rw [hformat, hformat, hlists]

/-- Other padding may hide where a number ends: with zeros behind it, 3 is written as 30 is. -/
example :
    let form : FormatSpec := { FormatSpec.listing with
      fill := '0', alignment := some .left, width := 2 }
    (BitSet.mk #[0x8] false).format form = (BitSet.mk #[0x40000000] false).format form := by
  decide +kernel

end PackedSet.Members
