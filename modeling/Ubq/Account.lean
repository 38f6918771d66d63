/-
# The books of an allocator

A run of a program leaves a list of allocator events.  `Account.run` replays the
list from the allocator's side: a block may be handed out only while it is not in
use and taken back only while it is.  A list is `Balanced` when the replay goes
through and ends with nothing in use, that is, when every block that was ever
handed out was taken back exactly once.
-/
import Ubq.Chain

namespace Account

open Function

/-- What happens to a block. -/
inductive Event
  | alloc (a : Addr)
  | dealloc (a : Addr)
  deriving DecidableEq

/-- Replay the events on the blocks in use; `none` at the first misuse. -/
def run : List Event → (Addr → Bool) → Option (Addr → Bool)
  | [], f => some f
  | .alloc a :: es, f => if f a then none else run es (update f a true)
  | .dealloc a :: es, f => if f a then run es (update f a false) else none

/-- No block is handed out twice or taken back twice, and none is left. -/
def Balanced (es : List Event) : Prop := run es (fun _ => false) = some fun _ => false

variable {f f' : Addr → Bool} {es es' : List Event}

theorem run_append (es es' : List Event) (f : Addr → Bool) :
    run (es ++ es') f = (run es f).bind (run es') := by
  induction es generalizing f with
  | nil => rfl
  | cons e es ih =>
    cases e with
    | alloc a =>
      simp only [List.cons_append, run]
      split
      · rfl
      · exact ih _
    | dealloc a =>
      simp only [List.cons_append, run]
      split
      · exact ih _
      · rfl

theorem run_snoc_alloc {a : Addr} (h : run es f = some f') (ha : f' a = false) :
    run (es ++ [.alloc a]) f = some (update f' a true) := by
  rw [run_append, h]
  simp [run, ha]

theorem run_snoc_dealloc {a : Addr} (h : run es f = some f') (ha : f' a = true) :
    run (es ++ [.dealloc a]) f = some (update f' a false) := by
  rw [run_append, h]
  simp [run, ha]

/-- Taking back everything in use, block by block. -/
theorem balanced_of_run {l : List Addr} (h : run es (fun _ => false) = some f) (hnd : l.Nodup)
    (hl : ∀ a, f a = true ↔ a ∈ l) : Balanced (es ++ l.map .dealloc) := by
  induction l generalizing es f with
  | nil =>
    have hf : f = fun _ => false := by
      funext a
      simpa using hl a
    rw [hf] at h
    rwa [List.map_nil, List.append_nil]
  | cons a l ih =>
    obtain ⟨hnot, hnd'⟩ := List.nodup_cons.mp hnd
    have ha : f a = true := (hl a).mpr (by simp)
    rw [List.map_cons, List.append_cons]
    refine ih (run_snoc_dealloc h ha) hnd' fun b => ?_
    by_cases hb : b = a
    · subst hb
      simpa using hnot
    · rw [update_of_ne hb, hl b]
      simp [hb]

end Account
