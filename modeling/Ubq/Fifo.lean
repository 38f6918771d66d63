/-
# Linearization to a FIFO queue

The sequential queue: `push v` appends, `pop (some v)` takes the first value, and
`pop none` is allowed on the empty queue only.  `Replay es q` says that the events
`es` are a run of it from the empty queue that ends with `q`.

A concurrent object logs the event of an operation at its linearization point, and
again when the operation returns, with what it returns.  `Linear log returned` says
that the log explains the returns: it is a run of the sequential queue, and each
thread's returns are its logged events, with at most one still to come.  Since an
event is logged between call and return, the log keeps the order of operations that
do not overlap.
-/
import Mathlib.Data.List.Basic

namespace Fifo

variable {ι α : Type*} [DecidableEq ι]

/-- A push, or a pop and what it gave. -/
inductive Event (α : Type*)
  | push (v : α)
  | pop (r : Option α)

/-- A run of the sequential queue, and what is left in the end. -/
inductive Replay : List (Event α) → List α → Prop
  | nil : Replay [] []
  | push {es : List (Event α)} {q : List α} {v : α} :
      Replay es q → Replay (es ++ [.push v]) (q ++ [v])
  | pop {es : List (Event α)} {q : List α} {v : α} :
      Replay es (v :: q) → Replay (es ++ [.pop (some v)]) q
  | empty {es : List (Event α)} : Replay es [] → Replay (es ++ [.pop none]) []

/-- The value pushed. -/
def Event.pushed? : Event α → Option α
  | .push v => some v
  | .pop _ => none

/-- The value popped. -/
def Event.popped? : Event α → Option α
  | .push _ => none
  | .pop r => r

/-- The pushed values are the popped ones, in that order, and those still there. -/
theorem Replay.values {es : List (Event α)} {q : List α} (h : Replay es q) :
    es.filterMap Event.pushed? = es.filterMap Event.popped? ++ q := by
  induction h with
  | nil => rfl
  | push _ ih => simp [ih, Event.pushed?, Event.popped?]
  | pop _ ih => simp [ih, Event.pushed?, Event.popped?]
  | empty _ ih => simpa [List.filterMap_cons, Event.pushed?, Event.popped?] using ih

/-- The events of one thread. -/
def eventsOf (t : ι) (log : List (ι × Event α)) : List (Event α) :=
  log.filterMap fun e => if e.1 = t then some e.2 else none

theorem eventsOf_self (t : ι) (log : List (ι × Event α)) (e : Event α) :
    eventsOf t (log ++ [(t, e)]) = eventsOf t log ++ [e] := by
  simp [eventsOf]

theorem eventsOf_other {t u : ι} (h : t ≠ u) (log : List (ι × Event α)) (e : Event α) :
    eventsOf u (log ++ [(t, e)]) = eventsOf u log := by
  simp [eventsOf, h]

/-- The log explains what the operations have returned. -/
structure Linear (log returned : List (ι × Event α)) : Prop where
  replay : ∃ q, Replay (log.map Prod.snd) q
  returns : ∀ t, ∃ pending, eventsOf t log = eventsOf t returned ++ pending ∧
    pending.length ≤ 1

end Fifo
