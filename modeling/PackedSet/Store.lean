import PackedSet.Edit
import Std.Data.TreeMap

/-!
# Stores of sets

A store keeps sets in numbered slots, and a script of commands works on them. A command names its
operands by their slots and replies with its answer, the events it caused, and the slot it
worked on as it is afterwards. A command that names an empty slot has no reply.
-/

namespace PackedSet

abbrev Store := Std.TreeMap Nat BitSet

inductive Command where
  | create (slot : Nat) (source : Source Nat)
  | edit (slot : Nat) (change : Edit Nat)
  | ask (slot : Nat) (query : Query Nat)

structure Reply where
  answer : Answer
  events : List Event
  after : Option BitSet

namespace Store

def reply (store : Store) (slot : Nat) (answer : Answer) (events : List Event) : Reply × Store :=
  (⟨answer, events, store[slot]?⟩, store)

/-- Carries out one command. A numeral that cannot be read leaves its slot as it was. -/
def exec (store : Store) : Command → Option (Reply × Store)
  | .create slot source => do
      let source ← source.resolve fun i => store[i]?
      let built := source.build
      match built.result with
      | .ok s => return reply (store.insert slot s) slot .done built.events
      | .error e => return reply store slot (.unreadable e) built.events
  | .edit slot change => do
      let s ← store[slot]?
      let change ← change.resolve fun i => store[i]?
      let outcome := change.apply s
      return reply (store.insert slot outcome.set) slot outcome.result outcome.events
  | .ask slot query => do
      let s ← store[slot]?
      let query ← query.resolve fun i => store[i]?
      let logged ← query.ask s
      return reply store slot logged.result logged.events

def run (store : Store) : List Command → Option (List Reply × Store)
  | [] => some ([], store)
  | command :: rest => do
      let (reply, store) ← store.exec command
      let (replies, store) ← run store rest
      return (reply :: replies, store)

end Store

end PackedSet
