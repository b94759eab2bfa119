import PackedSet.Proofs.Capacity
import PackedSet.Proofs.Cursor.Lists

/-!
# A growable set extends a fixed one

Twins have the same words, and only one of them may grow. As long as the fixed one does not lack
room, every request gives both the same answer and the same events and leaves twins, and the
growable one does not grow. The first request for which the fixed one lacks room is the first one
at which the growable one grows.
-/

namespace PackedSet

/-- An operand of a request: the set itself, as it is before the request, or another one. -/
inductive Operand where
  | self
  | other (t : BitSet)

def Operand.on (s : BitSet) : Operand → BitSet
  | self => s
  | other t => t

def Query.map {ι κ : Type} (f : ι → κ) : Query ι → Query κ
  | .summary => .summary
  | .runs => .runs
  | .test n => .test n
  | .contains n => .contains n
  | .size => .size
  | .isEmpty => .isEmpty
  | .differs other => .differs (f other)
  | .equal other => .equal (f other)
  | .unequal other => .unequal (f other)
  | .members => .members
  | .digest => .digest
  | .format spec => .format spec
  | .walk actions => .walk actions

inductive Request where
  | edit (change : Edit Operand)
  | ask (query : Query Operand)

def Request.on (s : BitSet) : Request → Call
  | edit change => .edit (change.map (Operand.on s))
  | ask query => .ask (query.map (Operand.on s))

def BitSet.session (s : BitSet) : List Request → List (Option (Logged Answer)) × BitSet
  | [] => ([], s)
  | r :: rest =>
      let later := session (s.after (r.on s)) rest
      (s.reply (r.on s) :: later.1, later.2)

/-- A fixed set had too little room for an insertion, an allocation or a result. -/
def Answer.lacksRoom : Answer → Bool
  | misuse (.outOfRange .insert _ _) => true
  | position none => true
  | positions ns => ns.contains none
  | tooSmall _ => true
  | _ => false

def lacksRoom (reply : Option (Logged Answer)) : Bool := reply.any fun r => r.result.lacksRoom

def Answer.hideGrowable : Answer → Answer
  | summary t => summary { t with growable := false }
  | a => a

def hideGrowable (reply : Option (Logged Answer)) : Option (Logged Answer) :=
  reply.map fun r => { r with result := r.result.hideGrowable }

namespace BitSet

def loosen (s : BitSet) : BitSet := { s with growable := true }

end BitSet

def Outcome.loosen {α : Type} (o : Outcome α) : Outcome α := { o with set := o.set.loosen }

/-- Of a call on a set and on its growable twin, either the first lacks room and the twin grows, or
both have the same outcome. -/
def Follows {α : Type} (answer : α → Answer) (s : BitSet) (o twin : Outcome α) : Prop :=
  (answer o.result).lacksRoom = true ∧ s.wordCount < twin.set.wordCount ∨
    (answer o.result).lacksRoom = false ∧ twin = o.loosen

namespace Follows

variable {α : Type} {answer : α → Answer} {s : BitSet} {o o' twin twin' : Outcome α}

theorem same (h : (answer o.result).lacksRoom = false) : Follows answer s o o.loosen :=
  Or.inr ⟨h, rfl⟩

theorem map (h : Follows answer s o twin) : Follows id s (o.map answer) (twin.map answer) := by
  rcases h with h | ⟨hroom, rfl⟩
  · exact Or.inl h
  · exact same (o := o.map answer) hroom

theorem ite {p : Prop} [Decidable p] (h : Follows answer s o twin)
    (h' : Follows answer s o' twin') :
    Follows answer s (if p then o else o') (if p then twin else twin') := by
  split
  · exact h
  · exact h'

end Follows

namespace BitSet

variable (s : BitSet)

section grown

variable {s : BitSet}

/-- What a set has grown to is kept through a later edit. -/
theorem lt_wordCount_apply {t : BitSet} (h : s.wordCount < t.wordCount) (e : Edit BitSet) :
    s.wordCount < (e.apply t).set.wordCount :=
  Nat.lt_of_lt_of_le h (t.wordCount_le_apply e)

theorem lt_wordCount_loosen_insert {n : Nat} (h : s.capacity ≤ n) :
    s.wordCount < (s.loosen.insert n).set.wordCount := by
  have hlt : s.wordCount < wordIndex n + 1 := by
    rwa [← Nat.not_le, ← lt_capacity_iff, Nat.not_lt]
  rw [s.loosen.wordCount_insert (Or.inr rfl)]
  exact Nat.lt_of_lt_of_le hlt (le_room _ _)

theorem lt_wordCount_loosen_allocate (h : s.firstFree? = none) :
    s.wordCount < s.loosen.allocate.set.wordCount := by
  have hfull : s.loosen.firstFree? = none := h
  rw [s.loosen.allocate_eq_insert (Or.inl rfl), s.loosen.leastAbsent_of_full hfull]
  exact lt_wordCount_loosen_insert (Nat.le_refl s.capacity)

theorem allocate_of_firstFree? {n : Nat} (h : s.firstFree? = some n) :
    s.allocate = ⟨some n, s.mark n, []⟩ := by
  rw [allocate, h]

end grown

section follows

variable {s : BitSet} (hg : s.growable = false)
include hg

theorem follows_insert (n : Nat) : Follows .ofFault s (s.insert n) (s.loosen.insert n) := by
  by_cases hn : n < s.capacity
  · have hloose : s.loosen.insert n = .done (s.loosen.mark n) := s.loosen.insert_of_lt hn
    rw [s.insert_of_lt hn, hloose]
    exact .same rfl
  · have hle := Nat.not_lt.1 hn
    rw [s.insert_of_fixed hle hg]
    exact Or.inl ⟨rfl, lt_wordCount_loosen_insert hle⟩

theorem follows_extend (positions : List Nat) :
    Follows .ofFault s (s.extend positions) (s.loosen.extend positions) := by
  induction positions generalizing s with
  | nil => exact .same rfl
  | cons n rest ih =>
      rw [extend_cons, extend_cons]
      by_cases hn : n < s.capacity
      · have hloose : s.loosen.insert n = .done (s.mark n).loosen := s.loosen.insert_of_lt hn
        have hrest := ih (s := s.mark n) hg
        rw [Follows, wordCount_mark] at hrest
        rw [s.insert_of_lt hn, hloose, Outcome.done_andThen, Outcome.done_andThen]
        exact hrest
      · have hle := Nat.not_lt.1 hn
        have hok : (s.loosen.insert n).result = .ok () := s.loosen.result_insert (Or.inr rfl)
        have hgrown := lt_wordCount_loosen_insert hle
        -- the fixed set stops here; the twin takes the rest of the list and stays as large
        rw [s.insert_of_fixed hle hg, Outcome.andThen_of_ok hok]
        exact Or.inl ⟨rfl, lt_wordCount_apply hgrown (.extend rest)⟩

theorem follows_allocate : Follows .position s s.allocate s.loosen.allocate := by
  cases hf : s.firstFree? with
  | some n =>
      have hloose : s.loosen.firstFree? = some n := hf
      rw [allocate_of_firstFree? hf, allocate_of_firstFree? hloose]
      exact .same rfl
  | none =>
      rw [s.allocate_of_full hg hf]
      exact Or.inl ⟨rfl, lt_wordCount_loosen_allocate hf⟩

theorem follows_allocateMany (count : Nat) :
    Follows .positions s (s.allocateMany count) (s.loosen.allocateMany count) := by
  induction count generalizing s with
  | zero => exact .same rfl
  | succ count ih =>
      rw [allocateMany, allocateMany]
      cases hf : s.firstFree? with
      | some n =>
          have hloose : s.loosen.firstFree? = some n := hf
          have hroom (ns : List (Option Nat)) :
              (Answer.positions (some n :: ns)).lacksRoom = (Answer.positions ns).lacksRoom := rfl
          rw [allocate_of_firstFree? hf, allocate_of_firstFree? hloose, Follows, hroom]
          rcases ih (s := s.mark n) hg with ⟨hshort, hgrown⟩ | ⟨hshort, hsame⟩
          · rw [wordCount_mark] at hgrown
            exact Or.inl ⟨hshort, hgrown⟩
          · have hlater : (s.loosen.mark n).allocateMany count =
                ((s.mark n).allocateMany count).loosen := hsame
            refine Or.inr ⟨hshort, ?_⟩
            simp only [hlater]
            rfl
      | none =>
          have hgrown := lt_wordCount_loosen_allocate hf
          rw [s.allocate_of_full hg hf]
          exact Or.inl ⟨rfl, lt_wordCount_apply hgrown (.allocateMany count)⟩

/-- A result that is stored if there is room for it. -/
theorem follows_ensure {α : Type} {required : Nat}
    {next : BitSet → Outcome (Except SizeMismatch α)} {answer : Except SizeMismatch α → Answer}
    (hnext : ∀ t, next t.loosen = (next t).loosen)
    (hcount : ∀ t, (next t).set.wordCount = t.wordCount)
    (hok : ∀ t, (answer (next t).result).lacksRoom = false)
    (herror : ∀ m, (answer (.error m)).lacksRoom = true) :
    Follows answer s ((s.ensure required).andThen next)
      ((s.loosen.ensure required).andThen next) := by
  by_cases hr : required ≤ s.wordCount
  · rw [s.ensure_of_le hr, s.loosen.ensure_of_le hr, Outcome.done_andThen, Outcome.done_andThen,
      hnext]
    exact Or.inr ⟨hok s, rfl⟩
  · have hlt := Nat.not_le.1 hr
    rw [s.ensure_of_fixed hlt hg, Outcome.andThen_error]
    refine Or.inl ⟨herror _, ?_⟩
    rw [s.loosen.wordCount_ensure_andThen hcount (Or.inr rfl)]
    exact Nat.lt_of_lt_of_le hlt (le_room _ _)

theorem follows_apply (e : Edit BitSet) : Follows id s (e.apply s) (e.apply s.loosen) := by
  cases e with
  | insert n => exact (follows_insert hg n).map
  | erase n =>
      have hfollows : Follows .ofFault s (s.erase n) (s.loosen.erase n) :=
        .ite (.same rfl) (.same rfl)
      exact hfollows.map
  | clear => exact .same rfl
  | fill n =>
      have hfollows : Follows .ofFault s (s.fill n) (s.loosen.fill n) :=
        .ite (.same rfl) (.same rfl)
      exact hfollows.map
  | allocate => exact (follows_allocate hg).map
  | allocateMany count => exact (follows_allocateMany hg count).map
  | extend positions => exact (follows_extend hg positions).map
  | copyFrom src =>
      have hfollows : Follows .ofFault s (s.copyFrom src) (s.loosen.copyFrom src) :=
        .ite (.same rfl) (.same rfl)
      exact hfollows.map
  | inter a b =>
      exact (follows_ensure hg (fun _ => rfl) (fun t => t.wordCount_overwrite _) (fun _ => rfl)
        fun _ => rfl).map
  | union a b =>
      exact (follows_ensure hg (fun _ => rfl) (fun t => t.wordCount_overwrite _) (fun _ => rfl)
        fun _ => rfl).map
  | merge src =>
      exact (follows_ensure hg (fun _ => rfl) (fun t => t.wordCount_overwrite _) (fun _ => rfl)
        fun _ => rfl).map
  | meet src => exact .same rfl

end follows

/-- An operand is read through its words, so it may be the set or its twin. -/
theorem apply_on_loosen (t : BitSet) (e : Edit Operand) :
    (e.map (Operand.on s.loosen)).apply t = (e.map (Operand.on s)).apply t := by
  cases e with
  | copyFrom src => cases src <;> rfl
  | inter a b => cases a <;> cases b <;> rfl
  | union a b => cases a <;> cases b <;> rfl
  | merge src => cases src <;> rfl
  | meet src => cases src <;> rfl
  | _ => rfl

theorem ask_loosen (q : Query Operand) :
    hideGrowable ((q.map (Operand.on s.loosen)).ask s.loosen) =
      hideGrowable ((q.map (Operand.on s)).ask s) := by
  cases q with
  | differs other => cases other <;> rfl
  | equal other => cases other <;> rfl
  | unequal other => cases other <;> rfl
  | members =>
      rw [Query.map, Query.map, Query.ask, Query.ask, Cursor.rest_cursor, Cursor.rest_cursor]
      rfl
  | walk actions =>
      rw [Query.map, Query.map, Query.ask, Query.ask, Cursor.walk_cursor, Cursor.walk_cursor]
      rfl
  | _ => rfl

theorem lacksRoom_ask (q : Query BitSet) : lacksRoom (q.ask s) = false := by
  cases q with
  | test n =>
      rw [Query.ask, BitSet.test]
      split <;> rfl
  | walk actions =>
      rw [Query.ask]
      cases Cursor.walk [s.cursor] actions <;> rfl
  | _ => rfl

/-- One request, on a fixed set and on its twin. -/
theorem reply_cases (hg : s.growable = false) (r : Request) :
    lacksRoom (s.reply (r.on s)) = true ∧
        s.wordCount < (s.loosen.after (r.on s.loosen)).wordCount ∨
      lacksRoom (s.reply (r.on s)) = false ∧
        s.loosen.after (r.on s.loosen) = (s.after (r.on s)).loosen ∧
        hideGrowable (s.loosen.reply (r.on s.loosen)) = hideGrowable (s.reply (r.on s)) := by
  cases r with
  | edit change =>
      have hfollows := follows_apply hg (change.map (Operand.on s))
      rw [← s.apply_on_loosen s.loosen] at hfollows
      refine hfollows.imp id fun ⟨hroom, hsame⟩ => ⟨hroom, congrArg Outcome.set hsame, ?_⟩
      exact congrArg (fun o => hideGrowable (some ⟨o.result, o.events⟩)) hsame
  | ask query => exact Or.inr ⟨s.lacksRoom_ask _, rfl, s.ask_loosen query⟩

theorem session_of_fixed (hg : s.growable = false) (requests : List Request) :
    (s.session requests).2.growable = false ∧ (s.session requests).2.wordCount = s.wordCount := by
  induction requests generalizing s with
  | nil => exact ⟨hg, rfl⟩
  | cons r rest ih =>
      obtain ⟨hgrowable, hcount⟩ := ih (s.after (r.on s)) ((s.growable_after _).trans hg)
      exact ⟨hgrowable, hcount.trans (wordCount_afterAll_of_fixed hg [r.on s])⟩

theorem session_loosen (hg : s.growable = false) {requests : List Request}
    (hroom : ∀ reply ∈ (s.session requests).1, lacksRoom reply = false) :
    (s.loosen.session requests).2 = (s.session requests).2.loosen ∧
      (s.loosen.session requests).1.map hideGrowable = (s.session requests).1.map hideGrowable := by
  induction requests generalizing s with
  | nil => exact ⟨rfl, rfl⟩
  | cons r rest ih =>
      have hnow : lacksRoom (s.reply (r.on s)) = false := hroom _ List.mem_cons_self
      rcases s.reply_cases hg r with ⟨hshort, -⟩ | ⟨-, hafter, hreply⟩
      · rw [hnow] at hshort
        exact Bool.noConfusion hshort
      · obtain ⟨hset, hreplies⟩ := ih (s.after (r.on s)) ((s.growable_after _).trans hg)
          fun reply hreply => hroom reply (List.mem_cons_of_mem _ hreply)
        rw [session, session, hafter]
        refine ⟨hset, ?_⟩
        rw [List.map_cons, List.map_cons, hreply, hreplies]

structure Twins (f g : BitSet) : Prop where
  fixed : f.growable = false
  growable : g.growable = true
  words : f.words = g.words

theorem Twins.eq_loosen {f g : BitSet} (h : Twins f g) : g = f.loosen := by
  obtain ⟨words, growable⟩ := g
  obtain rfl : growable = true := h.growable
  rw [loosen, h.words]

theorem twins_loosen (hg : s.growable = false) : Twins s s.loosen := ⟨hg, rfl, rfl⟩

/-- As long as the fixed twin has not lacked room, twins give the same replies up to the flag and
stay twins, and the growable one has not grown. The fixed one then lacks room for the next request
exactly if the growable one grows at it. -/
theorem growable_extends_fixed {f g : BitSet} (h : Twins f g) {requests : List Request}
    (hroom : ∀ reply ∈ (f.session requests).1, lacksRoom reply = false) :
    let f' := (f.session requests).2
    let g' := (g.session requests).2
    Twins f' g' ∧
      (g.session requests).1.map hideGrowable = (f.session requests).1.map hideGrowable ∧
      g'.wordCount = g.wordCount ∧
      ∀ r : Request, lacksRoom (f'.reply (r.on f')) = true ↔
        g'.wordCount < (g'.after (r.on g')).wordCount := by
  intro f' g'
  obtain rfl := h.eq_loosen
  obtain ⟨hset, hreplies⟩ := f.session_loosen h.fixed hroom
  obtain ⟨hfixed, hcount⟩ := f.session_of_fixed h.fixed requests
  have hg' : g' = f'.loosen := hset
  rw [hg']
  refine ⟨f'.twins_loosen hfixed, hreplies, hcount, fun r => ?_⟩
  rcases f'.reply_cases hfixed r with ⟨hshort, hgrown⟩ | ⟨hshort, hafter, -⟩
  · exact iff_of_true hshort hgrown
  · have hkept : (f'.after (r.on f')).wordCount = f'.wordCount :=
      wordCount_afterAll_of_fixed hfixed [r.on f']
    rw [hshort, hafter]
    exact iff_of_false Bool.false_ne_true (Nat.not_lt.2 (Nat.le_of_eq hkept))

/-- The misuses and the union of the set with itself are the same for both. Only the last request
does not fit. -/
theorem growable_extends_fixed_full_word :
    let f := fixed 32
    let g := expandable 32
    let requests : List Request := [.edit (.fill 31), .edit (.erase 40), .ask .summary,
      .edit (.union .self (.other ⟨#[5, 0], true⟩)), .ask (.test 32), .edit .allocate]
    let f' := (f.session requests).2
    let g' := (g.session requests).2
    Twins f g ∧ (∀ reply ∈ (f.session requests).1, lacksRoom reply = false) ∧ Twins f' g' ∧
      (lacksRoom (f'.reply (.edit .allocate)) = true ↔
        g'.wordCount < (g'.after (.edit .allocate)).wordCount) ∧
      lacksRoom (f'.reply (.edit .allocate)) = true := by
  intro f g requests f' g'
  have htwins : Twins f g := ⟨rfl, rfl, rfl⟩
  have hroom : ∀ reply ∈ (f.session requests).1, lacksRoom reply = false := by decide +kernel
  have hrun := growable_extends_fixed htwins hroom
  exact ⟨htwins, hroom, hrun.1, hrun.2.2.2 (.edit .allocate), by decide +kernel⟩

end BitSet

end PackedSet
