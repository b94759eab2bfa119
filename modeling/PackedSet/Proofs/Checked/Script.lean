import PackedSet.Proofs.Checked.Calls
import PackedSet.Proofs.HiddenCapacity

/-!
# Checked scripts

A script whose numbers are machine numbers, on a store whose sets the memory holds, meets no trap:
with every step tested it ends as the plain script does. The only thing that can stop it is a set
that is too large for the memory, and the peak of the script says whether there is one. What is left
are the faults that commands have in their contracts.
-/

namespace PackedSet

namespace Command

def numbers : Command → List Nat
  | create _ source => source.numbers
  | edit _ change => change.numbers
  | ask _ query => query.numbers

def contract : Command → List (Option Access)
  | create _ _ => []
  | edit _ change => change.contract
  | ask _ query => query.contract

end Command

namespace Store

def Held (memory : Memory) (store : Store) : Prop :=
  ∀ (slot : Nat) (s : BitSet), store[slot]? = some s → memory.Holds s

def demand (store : Store) : Command → Nat
  | .create _ source => ((source.resolve fun i => store[i]?).map Source.demand).getD 0
  | .edit slot change =>
      (store[slot]?.map fun s =>
        ((change.resolve fun i => store[i]?).map fun change =>
          (change.apply s).set.wordCount).getD 0).getD 0
  | .ask _ _ => 0

/-- The words of the largest set on the way through a script. -/
def peak (store : Store) : List Command → Nat
  | [] => 0
  | command :: rest =>
      max (store.demand command)
        (((store.exec command).map fun (_, after) => peak after rest).getD 0)

end Store

namespace Checked

def exec (memory : Memory) (store : Store) : Command → Checked (Option (Reply × Store))
  | .create slot source =>
      whenSome (source.resolve fun i => store[i]?) fun source => do
        let built ← build memory source
        match built.result with
        | .ok s => return some (Store.reply (store.insert slot s) slot .done built.events)
        | .error e => return some (store.reply slot (.unreadable e) built.events)
  | .edit slot change =>
      whenSome store[slot]? fun s =>
        whenSome (change.resolve fun i => store[i]?) fun change => do
          let outcome ← apply memory s change
          return some
            (Store.reply (store.insert slot outcome.set) slot outcome.result outcome.events)
  | .ask slot query =>
      whenSome store[slot]? fun s =>
        whenSome (query.resolve fun i => store[i]?) fun query => do
          let logged? ← ask s query
          return logged?.map fun logged => store.reply slot logged.result logged.events

def run (memory : Memory) (store : Store) :
    List Command → Checked (Option (List Reply × Store))
  | [] => return some ([], store)
  | command :: rest => do
      let done? ← exec memory store command
      whenSome done? fun (reply, after) => do
        let later? ← run memory after rest
        return later?.map fun (replies, last) => (reply :: replies, last)

end Checked

namespace Source

variable {s : BitSet}

theorem wordCount_readBytes {bytes : List UInt8} (h : (Numeral.readBytes bytes).result = .ok s) :
    s.wordCount = wordsFor bytes.length := by
  obtain ⟨-, -, rfl⟩ := Numeral.result_readBytes_eq_ok_iff.1 h
  exact (Numeral.extend_onePlaces fun n hn => hn).2

theorem wordCount_build {source : Source BitSet} (h : source.build.result = .ok s) :
    s.wordCount = source.demand := by
  cases source with
  | text numeral => exact wordCount_readBytes h
  | written src spec => exact wordCount_readBytes h
  | blank bits growable =>
      obtain rfl := Except.ok.inj h
      exact BitSet.wordCount_blank bits growable
  | _ =>
      obtain rfl := Except.ok.inj h
      rfl

end Source

namespace Store

open Checked (Runs whenSome_eq runs_build runs_apply ask_eq)

variable {memory : Memory} {store : Store} (hstore : store.Held memory)
include hstore

theorem Held.insert {s : BitSet} (hs : memory.Holds s) (slot : Nat) :
    Held memory (Std.TreeMap.insert store slot s) := by
  intro other t ht
  rw [Std.TreeMap.getElem?_insert] at ht
  split at ht
  · exact Option.some.inj ht ▸ hs
  · exact hstore other t ht

/-- One command takes the memory of the largest set that it makes or leaves. -/
theorem Held.runs_exec {command : Command} (hnumbers : ∀ n ∈ command.numbers, n < numberLimit) :
    Runs memory (store.demand command) (Checked.exec memory store command)
      (store.exec command) := by
  have hlookup : ∀ {a}, (∃ i : Nat, store[i]? = some a) → memory.Holds a :=
    fun ⟨i, hi⟩ => hstore i _ hi
  cases command with
  | create slot source =>
      refine Runs.whenSome fun resolved hr => ?_
      obtain ⟨hkeep, hoperands⟩ := Source.resolve_keeps hr
      refine (runs_build (fun a ha => hlookup (hoperands a ha)) (hkeep ▸ hnumbers)).andThen_ok
        fun _ => ?_
      generalize resolved.build = built
      obtain ⟨result, events⟩ := built
      cases result <;> rfl
  | edit slot change =>
      refine Runs.whenSome fun s hs => Runs.whenSome fun resolved hr => ?_
      obtain ⟨hkeep, hoperands, -⟩ := Edit.resolve_keeps hr
      exact (runs_apply (hstore slot s hs) (fun a ha => hlookup (hoperands a ha))
        (hkeep ▸ hnumbers)).andThen_ok fun _ => rfl
  | ask slot query =>
      refine Runs.of_eq (whenSome_eq fun s hs => whenSome_eq fun resolved _ => ?_) (Nat.zero_le _)
      rw [ask_eq (hstore slot s hs), Checked.ok_bind]
      cases resolved.ask s <;> rfl

/-- A command for which there is memory leaves sets that the memory holds. -/
theorem Held.exec {command : Command} {reply : Reply} {after : Store}
    (h : store.exec command = some (reply, after)) (hfit : store.demand command ≤ memory.words) :
    after.Held memory := by
  cases command with
  | create slot source =>
      obtain ⟨resolved, hr, h⟩ := Option.bind_eq_some_iff.1 h
      rw [demand, hr] at hfit
      generalize hb : resolved.build = built at h
      obtain ⟨result, events⟩ := built
      cases result with
      | ok s =>
          cases h
          have hcount := Source.wordCount_build (congrArg Logged.result hb)
          exact hstore.insert (hcount.trans_le hfit) slot
      | error e =>
          cases h
          exact hstore
  | edit slot change =>
      obtain ⟨s, hs, h⟩ := Option.bind_eq_some_iff.1 h
      obtain ⟨resolved, hr, h⟩ := Option.bind_eq_some_iff.1 h
      rw [demand, hs, Option.map_some, hr] at hfit
      cases h
      exact hstore.insert hfit slot
  | ask slot query =>
      obtain ⟨s, hs, h⟩ := Option.bind_eq_some_iff.1 h
      obtain ⟨resolved, hr, h⟩ := Option.bind_eq_some_iff.1 h
      obtain ⟨logged, hasked, h⟩ := Option.bind_eq_some_iff.1 h
      cases h
      exact hstore

/-- The peak of a script is the memory that it takes. -/
theorem Held.runs_run {script : List Command}
    (hnumbers : ∀ command ∈ script, ∀ n ∈ command.numbers, n < numberLimit) :
    Runs memory (store.peak script) (Checked.run memory store script) (store.run script) := by
  induction script generalizing store with
  | nil => exact Runs.of_ok (Nat.zero_le _) _
  | cons command rest ih =>
      have hfirst := hstore.runs_exec (hnumbers command List.mem_cons_self)
      refine hfirst.bind (Nat.le_max_left _ _) fun hfit => Runs.max_left ?_ hfit
      refine Runs.whenSome fun (reply, after) hexec => ?_
      have hlater := ih (hstore.exec hexec hfit) fun c hc =>
        hnumbers c (List.mem_cons_of_mem command hc)
      refine hlater.andThen_ok fun _ => ?_
      dsimp only
      cases after.run rest <;> rfl

omit hstore

def Kept (command : Command) (reply : Reply) : Prop :=
  ∀ fault, reply.answer = .misuse fault → fault.access? ∈ command.contract

theorem kept_of_exec {command : Command} {reply : Reply} {after : Store}
    (h : store.exec command = some (reply, after)) : Kept command reply := by
  cases command with
  | create slot source =>
      obtain ⟨resolved, -, h⟩ := Option.bind_eq_some_iff.1 h
      generalize resolved.build = built at h
      obtain ⟨result, events⟩ := built
      cases result <;> cases h <;> exact fun _ hf => Answer.noConfusion hf
  | edit slot change =>
      obtain ⟨s, -, h⟩ := Option.bind_eq_some_iff.1 h
      obtain ⟨resolved, hr, h⟩ := Option.bind_eq_some_iff.1 h
      obtain ⟨-, -, hcontract⟩ := Edit.resolve_keeps hr
      cases h
      intro fault hf
      rw [Command.contract, ← hcontract]
      exact Edit.access?_mem_contract hf
  | ask slot query =>
      obtain ⟨s, -, h⟩ := Option.bind_eq_some_iff.1 h
      obtain ⟨resolved, hr, h⟩ := Option.bind_eq_some_iff.1 h
      obtain ⟨logged, hasked, h⟩ := Option.bind_eq_some_iff.1 h
      cases h
      intro fault hf
      rw [Command.contract, ← Query.contract_resolve hr]
      exact Query.access?_mem_contract hasked hf

theorem forall_kept {script : List Command} {replies : List Reply} {last : Store}
    (h : store.run script = some (replies, last)) : List.Forall₂ Kept script replies := by
  induction script generalizing store replies with
  | nil =>
      cases h
      exact .nil
  | cons command rest ih =>
      obtain ⟨⟨reply, after⟩, hexec, h⟩ := Option.bind_eq_some_iff.1 h
      obtain ⟨⟨later, end'⟩, hrun, h⟩ := Option.bind_eq_some_iff.1 h
      cases h
      exact .cons (kept_of_exec hexec) (ih hrun)

/-- On sets that the memory holds, a script whose numbers are machine numbers meets no trap: it ends
as the plain script does if the memory takes the largest set on its way, and else it runs out of
memory. The faults it replies with are those in the contracts of its commands. -/
theorem script_meets_no_trap {memory : Memory} {store : Store} (hstore : store.Held memory)
    {script : List Command}
    (hnumbers : ∀ command ∈ script, ∀ n ∈ command.numbers, n < numberLimit) :
    Runs memory (store.peak script) (Checked.run memory store script) (store.run script) ∧
      ∀ replies last, store.run script = some (replies, last) →
        List.Forall₂ Kept script replies :=
  ⟨hstore.runs_run hnumbers, fun _ _ h => forall_kept h⟩

theorem held_empty (memory : Memory) : Held memory ∅ := fun slot s hs => by
  rw [Std.TreeMap.getElem?_emptyc] at hs
  cases hs

/-- A growable set takes position 1000, and a fixed one refuses the largest number there is. -/
theorem script_meets_no_trap_growing :
    let script : List Command := [.create 0 (.blank 0 true), .edit 0 (.insert 1000),
      .create 1 (.blank 40 false), .edit 1 (.insert 18446744073709551615), .edit 1 (.fill 64),
      .edit 0 (.inter 0 1), .ask 1 (.walk [.move 0 (.nth 62), .move 0 .remaining])]
    Held ⟨32, by decide⟩ ∅ ∧
      (∀ command ∈ script, ∀ n ∈ command.numbers, n < numberLimit) ∧ peak ∅ script = 32 ∧
      Checked.run ⟨32, by decide⟩ ∅ script = .ok (run ∅ script) ∧
      (∃ count, 31 < count ∧ Checked.run ⟨31, by decide⟩ ∅ script = .error (.exhausted count)) ∧
      ∀ replies last, run ∅ script = some (replies, last) → List.Forall₂ Kept script replies := by
  intro script
  have hnumbers : ∀ command ∈ script, ∀ n ∈ command.numbers, n < numberLimit := by decide
  have hpeak : peak ∅ script = 32 := by decide +kernel
  have hlarge := script_meets_no_trap (held_empty ⟨32, by decide⟩) hnumbers
  have hsmall := script_meets_no_trap (held_empty ⟨31, by decide⟩) hnumbers
  exact ⟨held_empty _, hnumbers, hpeak, hlarge.1.fits hpeak.le,
    hsmall.1.exhausted (hpeak.symm ▸ Nat.lt_succ_self 31), hlarge.2⟩

end Store

end PackedSet
