import PackedSet.Proofs.Alike
import PackedSet.Store

/-!
# Capacity is hidden from commands on content

A command on content changes or reads the members of its operands and asks for nothing else. Two
stores are alike if they have the same slots filled, with alike sets in them. A command on content
replies the same on alike stores and leaves alike stores, and so does a script of such commands,
whatever the word counts of the growable sets are.
-/

namespace PackedSet

/-- Edits that change members and ask for no position under the capacity. -/
def Edit.onContent {ι : Type} : Edit ι → Bool
  | .erase _ => false
  | .fill _ => false
  | .copyFrom _ => false
  | _ => true

def Query.onContent {ι : Type} : Query ι → Bool
  | .summary => false
  | .runs => false
  | .test _ => false
  | _ => true

def Command.onContent : Command → Bool
  | .create _ _ => true
  | .edit _ change => change.onContent
  | .ask _ query => query.onContent

theorem rel_bind {α β γ δ : Type} {R : α → β → Prop} {S : γ → δ → Prop} {x : Option α}
    {y : Option β} {f : α → Option γ} {g : β → Option δ} (h : Option.Rel R x y)
    (hfg : ∀ a b, R a b → Option.Rel S (f a) (g b)) : Option.Rel S (x.bind f) (y.bind g) := by
  cases h with
  | none => exact .none
  | some hab => exact hfg _ _ hab

section resolve

variable {lookup lookup' : Nat → Option BitSet}
  (hl : ∀ i, Option.Rel BitSet.Alike (lookup i) (lookup' i))

inductive BuildsAlike : Except Numeral.ReadError BitSet → Except Numeral.ReadError BitSet → Prop
  | error (e : Numeral.ReadError) : BuildsAlike (.error e) (.error e)
  | ok {s t : BitSet} (h : s.Alike t) : BuildsAlike (.ok s) (.ok t)

theorem BuildsAlike.refl (built : Except Numeral.ReadError BitSet) : BuildsAlike built built := by
  cases built with
  | error e => exact .error e
  | ok s => exact .ok (.refl s)

include hl

theorem Source.build_alike (source : Source Nat) :
    Option.Rel (fun x y => BuildsAlike x.build.result y.build.result)
      (source.resolve lookup) (source.resolve lookup') := by
  cases source with
  | blank bits growable => exact .some (.refl _)
  | copy src => exact rel_bind (hl src) fun _ _ h => .some (.ok h)
  | collect positions => exact .some (.refl _)
  | text numeral => exact .some (.refl _)
  | written src spec =>
      refine rel_bind (hl src) fun s t h => .some ?_
      rw [build, build, h.format spec]
      exact .refl _

variable {s t : BitSet} (hst : s.Alike t)
include hst

/-- Alike sets agree on an edit of their members. -/
theorem Edit.apply_alike {e : Edit Nat} (he : e.onContent = true) :
    Option.Rel (fun x y => Agree (x.apply s).plain (y.apply t).plain)
      (e.resolve lookup) (e.resolve lookup') := by
  have hp : s.plain.Alike t.plain := BitSet.alike_iff_plain.1 hst
  have hsrc : ∀ {a b : BitSet}, a.Alike b → a.plain.Alike b.plain := BitSet.alike_iff_plain.1
  simp only [BitSet.plain_apply]
  cases e with
  | insert n => exact .some ((hp.insert n).map _)
  | erase n => exact Bool.noConfusion he
  | clear => exact .some ⟨rfl, hp.clear⟩
  | fill n => exact Bool.noConfusion he
  | allocate => exact .some (hp.allocate.map _)
  | allocateMany count => exact .some ((hp.allocateMany count).map _)
  | extend positions => exact .some ((hp.extend positions).map _)
  | copyFrom src => exact Bool.noConfusion he
  | inter a b =>
      refine rel_bind (hl a) fun _ _ ha => rel_bind (hl b) fun _ _ hb => .some ?_
      exact (hp.inter (hsrc ha) (hsrc hb)).map _
  | union a b =>
      refine rel_bind (hl a) fun _ _ ha => rel_bind (hl b) fun _ _ hb => .some ?_
      exact (hp.union (hsrc ha) (hsrc hb)).map _
  | merge src => exact rel_bind (hl src) fun _ _ ha => .some ((hp.merge (hsrc ha)).map _)
  | meet src => exact rel_bind (hl src) fun _ _ ha => .some ((hp.meet (hsrc ha)).map _)

/-- Alike sets give the same answer to a query of their members. -/
theorem Query.ask_alike {q : Query Nat} (hq : q.onContent = true) :
    Option.Rel (fun x y => x.ask s = y.ask t) (q.resolve lookup) (q.resolve lookup') := by
  cases q with
  | summary => exact Bool.noConfusion hq
  | runs => exact Bool.noConfusion hq
  | test n => exact Bool.noConfusion hq
  | contains n =>
      refine .some ?_
      rw [ask, ask, hst.contains]
  | size =>
      refine .some ?_
      rw [ask, ask, hst.size]
  | isEmpty =>
      refine .some ?_
      rw [ask, ask, hst.isEmpty]
  | differs other =>
      refine rel_bind (hl other) fun a b hab => .some ?_
      rw [ask, ask, hst.differs hab]
  | equal other =>
      refine rel_bind (hl other) fun a b hab => .some ?_
      rw [ask, ask, BitSet.sameMembers, BitSet.sameMembers, hst.differs hab]
  | unequal other =>
      refine rel_bind (hl other) fun a b hab => .some ?_
      rw [ask, ask, BitSet.sameMembers, BitSet.sameMembers, hst.differs hab]
  | members =>
      refine .some ?_
      rw [ask, ask, hst.members]
  | digest =>
      refine .some ?_
      rw [ask, ask, hst.digest]
  | format spec =>
      refine .some ?_
      rw [ask, ask, hst.format]
  | walk actions =>
      refine .some ?_
      rw [ask, ask, hst.walk]

end resolve

structure Reply.Alike (r r' : Reply) : Prop where
  answer : r.answer = r'.answer
  after : Option.Rel BitSet.Alike r.after r'.after

namespace Store

/-- The same slots are filled, with alike sets. -/
def Alike (a b : Store) : Prop := ∀ slot : Nat, Option.Rel BitSet.Alike a[slot]? b[slot]?

theorem alike_empty : Alike ∅ ∅ := fun slot => by
  rw [Std.TreeMap.getElem?_emptyc]
  exact .none

section runs

variable {a b : Store} (h : a.Alike b)
include h

theorem Alike.insert {s t : BitSet} (hst : s.Alike t) (slot : Nat) :
    Alike (Std.TreeMap.insert a slot s) (Std.TreeMap.insert b slot t) := by
  intro other
  rw [Std.TreeMap.getElem?_insert, Std.TreeMap.getElem?_insert]
  split
  · exact .some hst
  · exact h other

def StepAlike (x y : Reply × Store) : Prop := x.1.Alike y.1 ∧ x.2.Alike y.2

theorem Alike.reply {answer answer' : Answer} (hanswer : answer = answer') (slot : Nat)
    (events events' : List Event) :
    StepAlike (a.reply slot answer events) (b.reply slot answer' events') :=
  ⟨⟨hanswer, h slot⟩, h⟩

/-- One command on content. -/
theorem Alike.exec {command : Command} (hc : command.onContent = true) :
    Option.Rel StepAlike (a.exec command) (b.exec command) := by
  cases command with
  | create slot source =>
      refine rel_bind (source.build_alike h) fun x y hxy => ?_
      generalize x.build = built at hxy ⊢
      generalize y.build = built' at hxy ⊢
      obtain ⟨result, events⟩ := built
      obtain ⟨result', events'⟩ := built'
      cases hxy with
      | error e => exact .some (h.reply rfl slot _ _)
      | ok hst => exact .some ((h.insert hst slot).reply rfl slot _ _)
  | edit slot change =>
      refine rel_bind (h slot) fun s t hst => ?_
      refine rel_bind (Edit.apply_alike h hst hc) fun x y hxy => .some ?_
      exact (h.insert (BitSet.alike_iff_plain.2 hxy.alike) slot).reply hxy.result slot _ _
  | ask slot query =>
      refine rel_bind (h slot) fun s t hst => ?_
      refine rel_bind (Query.ask_alike h hst hc) fun x y hxy => ?_
      rw [hxy]
      cases y.ask t with
      | none => exact .none
      | some logged => exact .some (h.reply rfl slot _ _)

/-- Alike stores cannot be told apart by commands on content: after every number of steps of every
script of them the replies have been the same, and the stores are alike again. -/
theorem run_alike {script : List Command} (hscript : ∀ c ∈ script, c.onContent = true)
    (steps : Nat) :
    Option.Rel (fun x y => List.Forall₂ Reply.Alike x.1 y.1 ∧ x.2.Alike y.2)
      (a.run (script.take steps)) (b.run (script.take steps)) := by
  induction script generalizing a b steps with
  | nil =>
      rw [List.take_nil]
      exact .some ⟨.nil, h⟩
  | cons command rest ih =>
      cases steps with
      | zero => exact .some ⟨.nil, h⟩
      | succ steps =>
          have hrest : ∀ c ∈ rest, c.onContent = true := fun c hc =>
            hscript c (List.mem_cons_of_mem _ hc)
          have hfirst := h.exec (hscript command List.mem_cons_self)
          rw [List.take_succ_cons]
          refine rel_bind hfirst fun x y hxy => ?_
          refine rel_bind (ih hxy.2 hrest steps) fun later later' hlater => .some ?_
          exact ⟨.cons hxy.1 hlater.1, hlater.2⟩

end runs

/-- The insertion makes only one of the two sets grow. -/
theorem run_alike_grown :
    let a : Store := Std.TreeMap.insert ∅ 0 ⟨#[5], true⟩
    let b : Store := Std.TreeMap.insert ∅ 0 ⟨#[5, 0], true⟩
    let script : List Command := [.edit 0 (.insert 40), .edit 0 (.union 0 0), .ask 0 .digest]
    a.Alike b ∧ (∀ c ∈ script, c.onContent = true) ∧
      Option.Rel (fun x y => List.Forall₂ Reply.Alike x.1 y.1 ∧ x.2.Alike y.2)
        (a.run script) (b.run script) := by
  intro a b script
  have hset : BitSet.Alike ⟨#[5], true⟩ ⟨#[5, 0], true⟩ :=
    ⟨by decide, rfl, fun hg => Bool.noConfusion hg⟩
  have hab : a.Alike b := alike_empty.insert hset 0
  have hscript : ∀ c ∈ script, c.onContent = true := by
    simp [script, Command.onContent, Edit.onContent, Query.onContent]
  exact ⟨hab, hscript, run_alike hab hscript 3⟩

end Store

end PackedSet
