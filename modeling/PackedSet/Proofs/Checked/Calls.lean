import PackedSet.Proofs.Checked.Algebra
import PackedSet.Proofs.Checked.Text

/-!
# Checked calls

Sources, edits and queries with every step tested. They end as the plain ones do if the numbers they
are written with are machine numbers and the memory holds their operands. A fault that an edit or
a query ends with is one of its contract.
-/

namespace PackedSet

variable {ι κ : Type}

def Fault.access? : Fault → Option Access
  | outOfRange access .. => some access
  | sizesDiffer .. => none

namespace Source

def numbers : Source ι → List Nat
  | blank bits _ => [bits]
  | collect positions => positions
  | _ => []

def operands : Source ι → List ι
  | copy src => [src]
  | written src _ => [src]
  | _ => []

/-- The words of the largest set that is made for a source. -/
def demand : Source BitSet → Nat
  | blank bits _ => wordsFor bits
  | copy src => src.wordCount
  | collect positions => (BitSet.collect positions).result.wordCount
  | text numeral => wordsFor (Numeral.body numeral).length
  | written src spec => wordsFor (Numeral.body (src.format spec)).length

theorem resolve_keeps {lookup : ι → Option κ} {source : Source ι} {resolved : Source κ}
    (h : source.resolve lookup = some resolved) :
    resolved.numbers = source.numbers ∧ ∀ a ∈ resolved.operands, ∃ i, lookup i = some a := by
  cases source with
  | copy src | written src _ =>
      obtain ⟨s, hs, heq⟩ := Option.bind_eq_some_iff.1 h
      cases heq
      exact ⟨rfl, fun a ha => ⟨src, List.mem_singleton.1 ha ▸ hs⟩⟩
  | _ =>
      cases h
      exact ⟨rfl, fun _ ha => absurd ha List.not_mem_nil⟩

end Source

namespace Edit

def numbers : Edit ι → List Nat
  | insert n => [n]
  | erase n => [n]
  | fill n => [n]
  | extend positions => positions
  | _ => []

def operands : Edit ι → List ι
  | copyFrom src => [src]
  | inter a b => [a, b]
  | union a b => [a, b]
  | merge src => [src]
  | meet src => [src]
  | _ => []

/-- The kinds of faults that an edit may end with. -/
def contract : Edit ι → List (Option Access)
  | insert _ => [some .insert]
  | extend _ => [some .insert]
  | erase _ => [some .erase]
  | fill _ => [some .fill]
  | copyFrom _ => [none]
  | _ => []

theorem resolve_keeps {lookup : ι → Option κ} {change : Edit ι} {resolved : Edit κ}
    (h : change.resolve lookup = some resolved) :
    resolved.numbers = change.numbers ∧ (∀ a ∈ resolved.operands, ∃ i, lookup i = some a) ∧
      resolved.contract = change.contract := by
  cases change with
  | copyFrom src | merge src | meet src =>
      obtain ⟨s, hs, heq⟩ := Option.bind_eq_some_iff.1 h
      cases heq
      exact ⟨rfl, fun a ha => ⟨src, List.mem_singleton.1 ha ▸ hs⟩, rfl⟩
  | inter a b | union a b =>
      obtain ⟨s, hs, h⟩ := Option.bind_eq_some_iff.1 h
      obtain ⟨t, ht, heq⟩ := Option.bind_eq_some_iff.1 h
      cases heq
      refine ⟨rfl, fun c hc => ?_, rfl⟩
      rcases List.mem_pair.1 hc with rfl | rfl
      · exact ⟨a, hs⟩
      · exact ⟨b, ht⟩
  | _ =>
      cases h
      exact ⟨rfl, fun _ ha => absurd ha List.not_mem_nil, rfl⟩

theorem access?_mem_contract {s : BitSet} {e : Edit BitSet} {fault : Fault}
    (h : (e.apply s).result = .misuse fault) : fault.access? ∈ e.contract := by
  have hfail : (e.apply s).result.failed = true := by rw [h]; rfl
  have hreports := (BitSet.failure_leaves_set hfail).2.2
  rw [h] at hreports
  cases fault with
  | outOfRange access index capacity =>
      have haccess : e.access? = some access := hreports.1
      cases e <;> cases haccess <;> exact List.mem_cons_self
  | sizesDiffer dest src =>
      obtain ⟨-, -, t, rfl, -⟩ := hreports
      exact List.mem_cons_self

end Edit

namespace Query

def numbers : Query ι → List Nat
  | test n => [n]
  | contains n => [n]
  | _ => []

def contract : Query ι → List (Option Access)
  | test _ => [some .test]
  | _ => []

theorem contract_resolve {lookup : ι → Option κ} {query : Query ι} {resolved : Query κ}
    (h : query.resolve lookup = some resolved) : resolved.contract = query.contract := by
  cases query with
  | differs other | equal other | unequal other =>
      obtain ⟨s, -, heq⟩ := Option.bind_eq_some_iff.1 h
      cases heq
      rfl
  | _ =>
      cases h
      rfl

theorem access?_mem_contract {s : BitSet} {q : Query BitSet} {logged : Logged Answer}
    {fault : Fault} (h : q.ask s = some logged) (hanswer : logged.result = .misuse fault) :
    fault.access? ∈ q.contract := by
  cases q with
  | test n =>
      obtain rfl := Option.some.inj h
      by_cases hn : n < s.capacity
      · rw [BitSet.test, if_pos hn] at hanswer
        cases hanswer
      · rw [BitSet.test, if_neg hn] at hanswer
        cases hanswer
        exact List.mem_cons_self
  | walk actions =>
      obtain ⟨readings, -, rfl⟩ := Option.map_eq_some_iff.1 h
      cases hanswer
  | _ =>
      cases h
      cases hanswer

end Query

namespace Checked

variable {memory : Memory} {s : BitSet}

def build (memory : Memory) :
    Source BitSet → Checked (Logged (Except Numeral.ReadError BitSet))
  | .blank bits growable => do
      let made ← blank memory bits growable
      return ⟨.ok made, []⟩
  | .copy src => do
      let _ ← zeroed memory src.wordCount
      return ⟨.ok src, []⟩
  | .collect positions => do
      let collected ← collect memory positions
      return ⟨.ok collected.result, collected.events⟩
  | .text numeral => readBytes memory (Numeral.body numeral)
  | .written src spec => do
      let text ← format spec src
      readBytes memory (Numeral.body text)

theorem runs_build {source : Source BitSet} (hoperands : ∀ a ∈ source.operands, memory.Holds a)
    (hnumbers : ∀ n ∈ source.numbers, n < numberLimit) :
    Runs memory source.demand (build memory source) source.build := by
  cases source with
  | blank bits growable =>
      exact (runs_blank (hnumbers bits List.mem_cons_self) growable).andThen_ok fun _ => rfl
  | copy src => exact (Runs.zeroed _).andThen_ok fun _ => rfl
  | collect positions => exact (runs_collect hnumbers).andThen_ok fun _ => rfl
  | text numeral => exact runs_readBytes _
  | written src spec =>
      rw [build, format_eq (hoperands src List.mem_cons_self)]
      exact runs_readBytes _

/-- An answer that goes with an outcome. -/
theorem runs_map {α : Type} {x : Checked (Outcome α)} {o : Outcome α} (h : RunsTo memory x o)
    (f : α → Answer) : RunsTo memory (x >>= fun o => return o.map f) (o.map f) :=
  Runs.andThen_ok h fun _ => rfl

theorem runs_of_ok {α : Type} {x : Checked (Outcome α)} {o : Outcome α} (h : x = .ok o)
    (hs : memory.Holds s) (hcount : o.set.wordCount = s.wordCount) : RunsTo memory x o :=
  Runs.of_eq h (hcount.trans_le hs)

def apply (memory : Memory) (s : BitSet) : Edit BitSet → Checked (Outcome Answer)
  | .insert n => do
      let o ← insert memory s n
      return o.map .ofFault
  | .erase n => do
      let o ← erase s n
      return o.map .ofFault
  | .clear => return ⟨.done, s.clear, []⟩
  | .fill n => do
      let o ← fill s n
      return o.map .ofFault
  | .allocate => do
      let o ← allocate memory s
      return o.map .position
  | .allocateMany count => do
      let o ← allocateMany memory s count
      return o.map .positions
  | .extend positions => do
      let o ← extend memory s positions
      return o.map .ofFault
  | .copyFrom src => do
      let o ← copyFrom s src
      return o.map .ofFault
  | .inter a b => do
      let o ← inter memory s a b
      return o.map .ofMismatch
  | .union a b => do
      let o ← union memory s a b
      return o.map .ofMismatch
  | .merge src => do
      let o ← merge memory s src
      return o.map .ofMerge
  | .meet src => return (s.meet src).map .flag

theorem runs_apply (hs : memory.Holds s) {e : Edit BitSet}
    (hoperands : ∀ a ∈ e.operands, memory.Holds a) (hnumbers : ∀ n ∈ e.numbers, n < numberLimit) :
    RunsTo memory (apply memory s e) (e.apply s) := by
  cases e with
  | insert n => exact runs_map (runs_insert hs (hnumbers n List.mem_cons_self)) _
  | erase n => exact runs_map (runs_of_ok (erase_eq hs n) hs (s.wordCount_erase n)) _
  | clear => exact runs_of_ok rfl hs s.wordCount_clear
  | fill n => exact runs_map (runs_of_ok (fill_eq hs n) hs (s.wordCount_fill n)) _
  | allocate => exact runs_map (runs_allocate hs) _
  | allocateMany count => exact runs_map (runs_allocateMany hs count) _
  | extend positions => exact runs_map (runs_extend hs hnumbers) _
  | copyFrom src =>
      exact runs_map (runs_of_ok (copyFrom_eq s src) hs (s.wordCount_copyFrom src)) _
  | inter a b => exact runs_map (runs_inter hs (hoperands a List.mem_cons_self)) _
  | union a b =>
      have hb : memory.Holds b := hoperands b (List.mem_cons_of_mem a List.mem_cons_self)
      exact runs_map (runs_union hs (hoperands a List.mem_cons_self) hb) _
  | merge src => exact runs_map (runs_merge hs (hoperands src List.mem_cons_self)) _
  | meet src => exact runs_of_ok rfl hs (s.wordCount_meet src)

/-- Queries that go over words without an index or a number are asked as they are. -/
def ask (s : BitSet) : Query BitSet → Checked (Option (Logged Answer))
  | .summary => do
      let bound ← capacity s
      return some ⟨.summary ⟨s.growable, bound, s.wordCount, s.wordRuns⟩, []⟩
  | .test n => do
      let looked ← test s n
      return some ⟨.ofTest looked.result, looked.events⟩
  | .contains n => do
      let found ← contains s n
      return some ⟨.flag found, []⟩
  | .size => do
      let count ← size s
      return some ⟨.number count, []⟩
  | .members => do
      let c ← cursor s
      let (ns, _) ← rest c
      return some ⟨.members ns, []⟩
  | .format spec => do
      let text ← format spec s
      return some ⟨.text text, []⟩
  | .walk actions => do
      let c ← cursor s
      let readings ← walk [c] actions
      return readings.map fun readings => ⟨.readings readings, []⟩
  | query => return query.ask s

theorem ask_eq (hs : memory.Holds s) (q : Query BitSet) : ask s q = .ok (q.ask s) := by
  cases q with
  | summary => rw [ask, capacity_eq hs]; rfl
  | test n => rw [ask, test_eq hs]; rfl
  | contains n => rw [ask, contains_eq]; rfl
  | size => rw [ask, size_eq hs]; rfl
  | members =>
      have hrest : rest s.cursor = .ok s.cursor.rest := rest_eq hs
      rw [ask, cursor_eq hs, ok_bind, hrest]
      rfl
  | format spec => rw [ask, format_eq hs]; rfl
  | walk actions =>
      have hheld : AllHeld memory [s.cursor] := fun c hc => List.mem_singleton.1 hc ▸ hs
      rw [ask, cursor_eq hs, ok_bind, walk_eq hheld]
      rfl
  | _ => rfl

end Checked

end PackedSet
