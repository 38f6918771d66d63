/-
# Runs of a deterministic machine and what they show

A partial step function is run from one state to another; each step may show
events, and a run shows the events of its steps in order.  The function is
deterministic, so a run to a state in which it stops is its only complete run: that
a loop terminates is the existence of one.
-/
import Mathlib.Data.List.Basic

/-- A run from one state to another, with the events of its steps. -/
inductive Exec {σ ε : Type*} (f : σ → Option σ) (shows : σ → List ε) : σ → List ε → σ → Prop
  | refl (x : σ) : Exec f shows x [] x
  | head {x y z : σ} {l : List ε} :
      f x = some y → Exec f shows y l z → Exec f shows x (shows x ++ l) z

namespace Exec

variable {σ ε : Type*} {f : σ → Option σ} {shows : σ → List ε} {x y z : σ} {l l' : List ε}

theorem trans (h : Exec f shows x l y) (h' : Exec f shows y l' z) :
    Exec f shows x (l ++ l') z := by
  induction h with
  | refl x => exact h'
  | head hstep _ ih =>
    rw [List.append_assoc]
    exact .head hstep (ih h')

/-- A run that shows nothing, and another. -/
theorem after (h : Exec f shows x [] y) (h' : Exec f shows y l z) : Exec f shows x l z :=
  h.trans h'

/-- A step that shows `l'`. -/
theorem emits (hstep : f x = some y) (hl : shows x = l') (h : Exec f shows y l z) :
    Exec f shows x (l' ++ l) z := by
  rw [← hl]
  exact .head hstep h

/-- A step that shows nothing. -/
theorem silent (hstep : f x = some y) (hl : shows x = []) (h : Exec f shows y l z) :
    Exec f shows x l z := emits hstep hl h

/-- A step that shows one event. -/
theorem shown {e : ε} (hstep : f x = some y) (hl : shows x = [e]) (h : Exec f shows y l z) :
    Exec f shows x (e :: l) z := emits hstep hl h

end Exec
