import PackedSet.Event
import PackedSet.BitSet.Membership

/-!
# Outcomes

A call on a set leaves an `Outcome`: its result, the set afterwards, and the events it reported in
order. `andThen` chains two calls where the first may fail; a failure skips the second call and
keeps the set as the first left it. `forEach` chains a call for each item of a list.
-/

namespace PackedSet

structure Logged (α : Type) where
  result : α
  events : List Event

structure Outcome (α : Type) where
  result : α
  set : BitSet
  events : List Event

namespace Outcome

variable {α β γ ε : Type}

def done (s : BitSet) : Outcome (Except ε Unit) := ⟨.ok (), s, []⟩

def andThen (o : Outcome (Except ε α)) (next : BitSet → Outcome (Except ε β)) :
    Outcome (Except ε β) :=
  match o with
  | ⟨.ok _, s, events⟩ => let after := next s; { after with events := events ++ after.events }
  | ⟨.error e, s, events⟩ => ⟨.error e, s, events⟩

/-- Takes a step for each item in order, up to the first step that fails. -/
def forEach (step : BitSet → α → Outcome (Except ε Unit)) (s : BitSet) (items : List α) :
    Outcome (Except ε Unit) :=
  items.foldl (fun o a => o.andThen fun s => step s a) (done s)

def map (f : α → β) (o : Outcome α) : Outcome β := { o with result := f o.result }

@[simp] theorem result_map (f : α → β) (o : Outcome α) : (o.map f).result = f o.result := rfl

@[simp] theorem set_map (f : α → β) (o : Outcome α) : (o.map f).set = o.set := rfl

@[simp] theorem events_map (f : α → β) (o : Outcome α) : (o.map f).events = o.events := rfl

theorem andThen_ok (a : α) (s : BitSet) (events : List Event)
    (next : BitSet → Outcome (Except ε β)) :
    andThen ⟨.ok a, s, events⟩ next =
      ⟨(next s).result, (next s).set, events ++ (next s).events⟩ := rfl

@[simp] theorem andThen_error (e : ε) (s : BitSet) (events : List Event)
    (next : BitSet → Outcome (Except ε β)) :
    andThen (⟨.error e, s, events⟩ : Outcome (Except ε α)) next = ⟨.error e, s, events⟩ := rfl

theorem andThen_of_ok {o : Outcome (Except ε α)} {a : α} (h : o.result = .ok a)
    (next : BitSet → Outcome (Except ε β)) :
    o.andThen next = ⟨(next o.set).result, (next o.set).set, o.events ++ (next o.set).events⟩ := by
  obtain ⟨result, s, events⟩ := o
  subst h
  rfl

theorem andThen_of_error {o : Outcome (Except ε α)} {e : ε} (h : o.result = .error e)
    (next : BitSet → Outcome (Except ε β)) : o.andThen next = ⟨.error e, o.set, o.events⟩ := by
  obtain ⟨result, s, events⟩ := o
  subst h
  rfl

@[simp] theorem done_andThen (s : BitSet) (next : BitSet → Outcome (Except ε β)) :
    (done s).andThen next = next s := by
  simp [done, andThen_ok]

@[simp] theorem andThen_done (o : Outcome (Except ε Unit)) : o.andThen done = o := by
  obtain ⟨result, s, events⟩ := o
  cases result <;> simp [done, andThen_ok]

theorem andThen_assoc (o : Outcome (Except ε α)) (f : BitSet → Outcome (Except ε β))
    (g : BitSet → Outcome (Except ε γ)) :
    (o.andThen f).andThen g = o.andThen fun s => (f s).andThen g := by
  obtain ⟨result, s, events⟩ := o
  cases result with
  | error e => rfl
  | ok a =>
      rw [andThen_ok, andThen_ok]
      obtain ⟨result, t, later⟩ := f s
      cases result with
      | error e => rfl
      | ok b => simp [andThen_ok]

@[simp] theorem forEach_nil (step : BitSet → α → Outcome (Except ε Unit)) (s : BitSet) :
    forEach step s [] = done s := rfl

theorem foldl_andThen (step : BitSet → α → Outcome (Except ε Unit))
    (o : Outcome (Except ε Unit)) (items : List α) :
    items.foldl (fun o a => o.andThen fun s => step s a) o =
      o.andThen fun s => forEach step s items := by
  induction items generalizing o with
  | nil => exact (andThen_done o).symm
  | cons a rest ih =>
      rw [List.foldl_cons, ih, andThen_assoc]
      congr 1
      funext s
      rw [forEach, List.foldl_cons, ih, done_andThen]

theorem forEach_cons (step : BitSet → α → Outcome (Except ε Unit)) (s : BitSet) (a : α)
    (rest : List α) :
    forEach step s (a :: rest) = (step s a).andThen fun t => forEach step t rest := by
  rw [forEach, List.foldl_cons, foldl_andThen, done_andThen]

/-- A chain whose steps cannot fail as long as `P` holds, and keep it, does not fail. -/
theorem forEach_of_ok {step : BitSet → α → Outcome (Except ε Unit)} {P : BitSet → Prop}
    (hok : ∀ s a, P s → (step s a).result = .ok ()) (hkeep : ∀ s a, P s → P (step s a).set)
    {s : BitSet} (hs : P s) (items : List α) :
    (forEach step s items).result = .ok () ∧ P (forEach step s items).set ∧
      (forEach step s items).set = items.foldl (fun t a => (step t a).set) s := by
  induction items generalizing s with
  | nil => exact ⟨rfl, hs, rfl⟩
  | cons a rest ih =>
      rw [forEach_cons, andThen_of_ok (hok s a hs)]
      exact ih (hkeep s a hs)

end Outcome

end PackedSet
