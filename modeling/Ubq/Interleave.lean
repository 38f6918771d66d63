/-
# Interleaved threads over a shared state

A shared-memory system: every thread runs the same code, one atomic step at a
time, and a configuration is the shared state together with the program
counter (locals included) of each thread.  A run is any interleaving of thread
steps, so a statement about `Reachable` configurations is a statement about
every schedule.

The rule `rely_guarantee` is the only induction over runs that the protocol
modules use.  It splits an invariant into

* a part `G` about the shared state and a ghost value,
* a part `L t` about one thread's locals, and
* a transition predicate `R u`: what thread `u` may rely on while others move.

Each protocol then proves one step lemma (the moving thread re-establishes `G`
and its own `L`, and stays within `R u` for the others) and one stability lemma
(`L u` survives `R u`), instead of a case split over pairs of threads.
-/
import Mathlib.Logic.Function.Basic
import Mathlib.Logic.Relation
import Mathlib.Order.WellFounded
import Mathlib.Order.RelClasses
import Mathlib.Data.Prod.Lex

/-- A lock that `t` holds is no other thread's. -/
theorem not_mine {ι : Type*} {o : Option ι} {t u : ι} (ho : o = some t) (hu : u ≠ t) :
    o ≠ some u := by
  rw [ho]
  exact fun hc => hu (Option.some.inj hc).symm

/-- A lock that neither `t` nor another thread holds is free. -/
theorem eq_none_of_ne_some {ι : Type*} {o : Option ι} {t : ι} (hmine : o ≠ some t)
    (hothers : ∀ u, u ≠ t → o ≠ some u) : o = none := by
  rw [Option.eq_none_iff_forall_ne_some]
  intro u
  by_cases hut : u = t
  · rwa [hut]
  · exact hothers u hut

/-- Where a step leads, if it is taken, satisfies `P`.  A goal of this form is proved by
evaluating the step. -/
def Post {α : Type*} (P : α → Prop) : Option α → Prop
  | none => True
  | some a => P a

theorem Post.of {α : Type*} {P : α → Prop} {o : Option α} {r : α} (hs : o = some r) (h : Post P o) :
    P r := by
  subst hs
  exact h

theorem Post.intro {α : Type*} {P : α → Prop} {o : Option α} (h : ∀ r, o = some r → P r) :
    Post P o := by
  cases o with
  | none => trivial
  | some r => exact h r rfl

theorem Post.mono {α : Type*} {P Q : α → Prop} {o : Option α} (h : Post P o)
    (hPQ : ∀ a, P a → Q a) :
    Post Q o := by
  cases o with
  | none => trivial
  | some a => exact hPQ a h

theorem Post.of_pair {α β : Type*} {P : α → β → Prop} {o : Option (α × β)} {a : α} {b : β}
    (hs : o = some (a, b)) (h : Post (fun r => P r.1 r.2) o) : P a b := by
  subst hs
  exact h

/-- Two steps side by side: where the first leads, the second leads to a related place. -/
def Both {α β : Type*} (R : α → β → Prop) : Option α → Option β → Prop
  | none, _ => True
  | some _, none => False
  | some a, some b => R a b

theorem Both.of {α β : Type*} {R : α → β → Prop} {o : Option α} {o' : Option β} {r : α}
    (hs : o = some r) (h : Both R o o') : ∃ r', o' = some r' ∧ R r r' := by
  subst hs
  cases o' with
  | none => exact h.elim
  | some r' => exact ⟨r', rfl, h⟩

namespace Interleave

open Function

/-- Ranks are compared component by component, from the left. -/
abbrev Rank := ℕ ×ₗ ℕ ×ₗ ℕ ×ₗ ℕ

/-- The rank with these components. -/
def Rank.mk (a b c d : ℕ) : Rank := toLex (a, toLex (b, toLex (c, d)))

theorem Rank.lt_iff {a b c d a' b' c' d' : ℕ} : Rank.mk a b c d < Rank.mk a' b' c' d' ↔
    a < a' ∨ a ≤ a' ∧ (b < b' ∨ b ≤ b' ∧ (c < c' ∨ c ≤ c' ∧ d < d')) := by
  unfold Rank.mk
  simp only [Prod.Lex.toLex_lt_toLex]
  omega

/-- Threads `ι` over the shared state `σ`, each at a program counter in `π`. -/
structure System (ι σ π : Type*) where
  init : σ
  idle : π
  step : ι → σ → π → σ → π → Prop

/-- The shared state and the program counter of every thread. -/
structure Conf (ι σ π : Type*) where
  sh : σ
  pc : ι → π

namespace System

variable {ι σ π : Type*} [DecidableEq ι]
variable {init : σ} {idle : π} {c : Conf ι σ π} {S : System ι σ π} {ok : ι → σ → π → σ → π → Prop}
  {rest : π → Bool}

/-- All threads idle on the initial shared state. -/
def start (S : System ι σ π) : Conf ι σ π := ⟨S.init, fun _ => S.idle⟩

/-- Thread `t` takes one step and every other thread keeps its locals. -/
def Moves (S : System ι σ π) (t : ι) (c c' : Conf ι σ π) : Prop :=
  ∃ s' p', S.step t c.sh (c.pc t) s' p' ∧ c' = ⟨s', update c.pc t p'⟩

/-- The configurations of all finite interleavings. -/
inductive Reachable (S : System ι σ π) : Conf ι σ π → Prop
  | start : Reachable S S.start
  | step {c c' : Conf ι σ π} {t : ι} : Reachable S c → S.Moves t c c' → Reachable S c'

/-- The runs in which only the steps that satisfy `ok` are taken. -/
def restrict (S : System ι σ π) (ok : ι → σ → π → σ → π → Prop) : System ι σ π where
  init := S.init
  idle := S.idle
  step := fun t s p s' p' => S.step t s p s' p' ∧ ok t s p s' p'

/-- A system that starts where `S` does, and from the configurations of `S` makes only
moves of `S`, has no runs beyond those of `S`. -/
theorem Reachable.of_moves {S' : System ι σ π} (h : S'.Reachable c) (hstart : S'.start = S.start)
    (hm : ∀ t c c', S.Reachable c → S'.Moves t c c' → S.Moves t c c') : S.Reachable c := by
  induction h with
  | start => exact hstart ▸ .start
  | step _ h ih => exact ih.step (hm _ _ _ ih h)

theorem restrict_reachable (h : (S.restrict ok).Reachable c) : S.Reachable c := by
  refine h.of_moves rfl fun t c c' _ hm => ?_
  obtain ⟨s', p', hs, rfl⟩ := hm
  exact ⟨s', p', hs.1, rfl⟩

/-- Allowing more steps keeps every run. -/
theorem restrict_mono {ok ok' : ι → σ → π → σ → π → Prop}
    (hok : ∀ t s p s' p', ok t s p s' p' → ok' t s p s' p')
    (h : (S.restrict ok).Reachable c) : (S.restrict ok').Reachable c := by
  refine h.of_moves rfl fun t c c' _ hm => ?_
  obtain ⟨s', p', hs, rfl⟩ := hm
  exact ⟨s', p', ⟨hs.1, hok _ _ _ _ _ hs.2⟩, rfl⟩

/-- The moves of the threads in the list, in that order, lead from `c` to `c'`. -/
inductive Along (S : System ι σ π) (c : Conf ι σ π) : List ι → Conf ι σ π → Prop
  | nil : Along S c [] c
  | snoc {ts : List ι} {c' c'' : Conf ι σ π} {t : ι} :
      Along S c ts c' → S.Moves t c' c'' → Along S c (ts ++ [t]) c''

theorem Along.reachable {c c' : Conf ι σ π} {ts : List ι}
    (h : S.Along c ts c') (hc : S.Reachable c) : S.Reachable c' := by
  induction h with
  | nil => exact hc
  | snoc _ hm ih => exact ih.step hm

/-! ## One operation at a time -/

/-- The runs of a single caller that may hold several operations open: a thread
moves only while all others rest. -/
inductive Serial (S : System ι σ π) (rest : π → Bool) : Conf ι σ π → Prop
  | start : Serial S rest S.start
  | step {c c' : Conf ι σ π} {t : ι} : Serial S rest c → (∀ u, u ≠ t → rest (c.pc u) = true) →
      S.Moves t c c' → Serial S rest c'

theorem Serial.reachable (h : S.Serial rest c) : S.Reachable c := by
  induction h with
  | start => exact .start
  | step _ _ hm ih => exact ih.step hm

/-- The runs of a single caller in a system that makes only moves of `S`. -/
theorem Serial.of_moves {S' : System ι σ π} (h : S'.Serial rest c)
    (hstart : S'.start = S.start)
    (hm : ∀ t c c', S.Reachable c → S'.Moves t c c' → S.Moves t c c') : S.Serial rest c := by
  induction h with
  | start => exact hstart ▸ .start
  | step _ hrest h ih => exact ih.step hrest (hm _ _ _ ih.reachable h)

/-! ## Systems given by a step function -/

section Schedule

variable {α : Type*} {f : ι → α → σ → π → Option (σ × π)} {sched : List (ι × α)}
  {c' : Conf ι σ π} {t u : ι}

/-- The system of a step function that also takes the scheduler's choice. -/
def ofStep (init : σ) (idle : π) (f : ι → α → σ → π → Option (σ × π)) : System ι σ π where
  init := init
  idle := idle
  step := fun t s p s' p' => ∃ a, f t a s p = some (s', p')

/-- Run a schedule: which thread moves, and with which choice. -/
def runs (f : ι → α → σ → π → Option (σ × π)) :
    List (ι × α) → Conf ι σ π → Option (Conf ι σ π)
  | [], c => some c
  | (t, a) :: rest, c =>
    match f t a c.sh (c.pc t) with
    | none => none
    | some (s', p') => runs f rest ⟨s', update c.pc t p'⟩

/-- What every step of a schedule keeps, the schedule keeps. -/
theorem runs_keep {P : Conf ι σ π → Prop}
    (hP : ∀ t a c s' p', (t, a) ∈ sched → P c → f t a c.sh (c.pc t) = some (s', p') →
      P ⟨s', update c.pc t p'⟩)
    (hc : P c) (h : runs f sched c = some c') : P c' := by
  induction sched generalizing c with
  | nil =>
    cases h
    exact hc
  | cons e rest ih =>
    obtain ⟨t, a⟩ := e
    simp only [runs] at h
    split at h
    · cases h
    · rename_i s' p' hstep
      exact ih (fun u b c s' p' he => hP u b c s' p' (by simp [he]))
        (hP t a c s' p' (by simp) hc hstep) h

theorem runs_reachable (hc : (ofStep init idle f).Reachable c) (h : runs f sched c = some c') :
    (ofStep init idle f).Reachable c' :=
  runs_keep (fun _ a _ s' p' _ hc hs => hc.step ⟨s', p', ⟨a, hs⟩, rfl⟩) hc h

/-- A schedule of one thread stays within the runs of that thread. -/
theorem runs_restrict (ht : ∀ e ∈ sched, e.1 = t)
    (hc : ((ofStep init idle f).restrict fun u _ _ _ _ => u = t).Reachable c)
    (h : runs f sched c = some c') :
    ((ofStep init idle f).restrict fun u _ _ _ _ => u = t).Reachable c' :=
  runs_keep (fun _ a _ s' p' he hc hs => hc.step ⟨s', p', ⟨⟨a, hs⟩, ht _ he⟩, rfl⟩) hc h

/-- A schedule of one thread is a sequence of its moves. -/
theorem runs_moves (ht : ∀ e ∈ sched, e.1 = t) (h : runs f sched c = some c') :
    Relation.ReflTransGen ((ofStep init idle f).Moves t) c c' := by
  refine runs_keep (fun u a c s' p' he hc hs => hc.tail ?_) .refl h
  obtain rfl : u = t := ht _ he
  exact ⟨s', p', ⟨a, hs⟩, rfl⟩

/-- A thread that the schedule leaves out keeps its locals. -/
theorem runs_other (hu : ∀ e ∈ sched, e.1 ≠ u) (h : runs f sched c = some c') :
    c'.pc u = c.pc u :=
  runs_keep (P := fun x => x.pc u = c.pc u)
    (fun _ _ _ _ _ he hc _ => (update_of_ne (hu _ he).symm _ _).trans hc) rfl h

/-- The step function with the steps that `ok` forbids removed. -/
def guarded (f : ι → α → σ → π → Option (σ × π)) (ok : ι → σ → π → σ → π → Prop)
    [∀ t s p s' p', Decidable (ok t s p s' p')] : ι → α → σ → π → Option (σ × π) :=
  fun t a s p => (f t a s p).filter fun r => ok t s p r.1 r.2

theorem guarded_moves [∀ t s p s' p', Decidable (ok t s p s' p')]
    (h : (ofStep init idle (guarded f ok)).Moves t c c') :
    ((ofStep init idle f).restrict ok).Moves t c c' := by
  obtain ⟨s', p', ⟨a, hs⟩, rfl⟩ := h
  obtain ⟨hf, hok⟩ := Option.filter_eq_some_iff.mp hs
  exact ⟨s', p', ⟨⟨a, hf⟩, by simpa using hok⟩, rfl⟩

/-- A schedule whose steps are checked stays within the runs of such steps. -/
theorem runs_guarded [∀ t s p s' p', Decidable (ok t s p s' p')]
    (h : runs (guarded f ok) sched (ofStep init idle f).start = some c') :
    ((ofStep init idle f).restrict ok).Reachable c' := by
  have hc : (ofStep init idle (guarded f ok)).Reachable c' := runs_reachable .start h
  exact hc.of_moves rfl fun _ _ _ _ hm => guarded_moves hm

/-- Run a schedule, giving up when a thread moves while another, the one that
`busy` names, is in the middle of an operation. -/
def serially (rest : π → Bool) (f : ι → α → σ → π → Option (σ × π)) :
    Option ι → List (ι × α) → Conf ι σ π → Option (Conf ι σ π)
  | _, [], c => some c
  | busy, (t, a) :: sched, c =>
    if busy.all (· = t) then
      match f t a c.sh (c.pc t) with
      | none => none
      | some (s', p') =>
        serially rest f (if rest p' then none else some t) sched ⟨s', update c.pc t p'⟩
    else none

theorem serially_serial {busy : Option ι}
    (hc : (ofStep init idle f).Serial rest c) (hrest : ∀ u, busy ≠ some u → rest (c.pc u) = true)
    (h : serially rest f busy sched c = some c') :
    (ofStep init idle f).Serial rest c' ∧ runs f sched c = some c' := by
  induction sched generalizing busy c with
  | nil =>
    cases h
    exact ⟨hc, rfl⟩
  | cons e sched ih =>
    simp only [serially] at h
    split at h
    · rename_i hbusy
      split at h
      · cases h
      · rename_i s' p' hstep
        have hothers : ∀ u, u ≠ e.1 → rest (c.pc u) = true := by
          intro u hu
          apply hrest u
          rintro rfl
          exact hu (by simpa using hbusy)
        simp only [runs, hstep]
        refine ih (hc.step hothers ⟨s', p', ⟨e.2, hstep⟩, rfl⟩) (fun u hu => ?_) h
        by_cases hut : u = e.1
        · subst hut
          cases hp : rest p' with
          | true => simpa using hp
          | false => exact absurd (if_neg (by simp [hp])) hu
        · simpa [update_of_ne hut] using hothers u hut
    · cases h

/-! ### Ranking one thread

Thread `t` is driven from a good configuration until `fin`.  Every step keeps the
configuration good, every calm step lowers the rank, and a calm step is always
enabled.  Then some calm schedule ends, and every run that does not end keeps
taking steps that are not calm. -/

/-- Thread `t` takes the step that `a` chooses. -/
def Takes (f : ι → α → σ → π → Option (σ × π)) (t : ι) (a : α) (c c' : Conf ι σ π) : Prop :=
  ∃ s' p', f t a c.sh (c.pc t) = some (s', p') ∧ c' = ⟨s', update c.pc t p'⟩

theorem Takes.runs {f : ι → α → σ → π → Option (σ × π)} {t : ι} {a : α} {c c' c'' : Conf ι σ π}
    {sched : List (ι × α)} (h : Takes f t a c c') (h' : runs f sched c' = some c'') :
    System.runs f ((t, a) :: sched) c = some c'' := by
  obtain ⟨s', p', hs, rfl⟩ := h
  simp only [System.runs, hs]
  exact h'

section Rank

variable {f : ι → α → σ → π → Option (σ × π)} {t : ι} {β : Type*} [Preorder β] [WellFoundedLT β]
  (good fin : Conf ι σ π → Prop) (calm : α → Prop) (rank : Conf ι σ π → β)

theorem exists_runs_of_rank
    (keep : ∀ c a c', good c → ¬ fin c → Takes f t a c c' → good c')
    (down : ∀ c a c', good c → ¬ fin c → calm a → Takes f t a c c' → fin c' ∨ rank c' < rank c)
    (next : ∀ c, good c → ¬ fin c → ∃ a c', calm a ∧ Takes f t a c c')
    (hc : good c) :
    ∃ (sched : List (ι × α)) (c' : Conf ι σ π), (∀ e ∈ sched, e.1 = t ∧ calm e.2) ∧
      runs f sched c = some c' ∧ fin c' ∧ good c' := by
  induction hr : rank c using WellFoundedLT.induction generalizing c with
  | ind r ih =>
    by_cases hfin : fin c
    · exact ⟨[], c, nofun, rfl, hfin, hc⟩
    · obtain ⟨a, c', ha, htakes⟩ := next c hc hfin
      have hgood := keep c a c' hc hfin htakes
      rcases down c a c' hc hfin ha htakes with hend | hlt
      · refine ⟨[(t, a)], c', fun e he => ?_, htakes.runs rfl, hend, hgood⟩
        rw [List.mem_singleton] at he
        subst he
        exact ⟨rfl, ha⟩
      · obtain ⟨sched, c'', hcalm, hrun, hend⟩ := ih (rank c') (hr ▸ hlt) hgood rfl
        refine ⟨(t, a) :: sched, c'', fun e he => ?_, htakes.runs hrun, hend⟩
        rcases List.mem_cons.mp he with rfl | he
        · exact ⟨rfl, ha⟩
        · exact hcalm e he

theorem exists_not_calm
    (keep : ∀ c a c', good c → ¬ fin c → Takes f t a c c' → good c')
    (down : ∀ c a c', good c → ¬ fin c → calm a → Takes f t a c c' → fin c' ∨ rank c' < rank c)
    {x : ℕ → Conf ι σ π} {a : ℕ → α} (hx : ∀ i, Takes f t (a i) (x i) (x (i + 1)))
    (hgood : good (x 0)) (hfin : ∀ i, ¬ fin (x i)) (n : ℕ) : ∃ i, n ≤ i ∧ ¬ calm (a i) := by
  by_contra hcalm
  have hg : ∀ i, good (x i) := by
    intro i
    induction i with
    | zero => exact hgood
    | succ i ih => exact keep _ _ _ ih (hfin i) (hx i)
  obtain ⟨i, hi⟩ := WellFounded.not_rel_apply_succ (r := (· < ·)) fun i => rank (x (n + i))
  apply hi
  have hc : calm (a (n + i)) := by
    by_contra hc
    exact hcalm ⟨n + i, Nat.le_add_right _ _, hc⟩
  exact (down _ _ _ (hg _) (hfin _) hc (hx _)).resolve_left (hfin _)

end Rank

end Schedule

/-- **The rely-guarantee rule.**  The ghost value is chosen anew at every step,
so no ghost code has to be written into the system itself. -/
theorem rely_guarantee {γ : Type*} (S : System ι σ π)
    (G : σ → γ → Prop) (L : ι → σ → γ → π → Prop) (R : ι → σ → γ → σ → γ → Prop)
    (hinit : ∃ g, G S.init g ∧ ∀ t, L t S.init g S.idle)
    (hstep : ∀ t s g p s' p', G s g → L t s g p → S.step t s p s' p' →
      ∃ g', G s' g' ∧ L t s' g' p' ∧ ∀ u, u ≠ t → R u s g s' g')
    (hstable : ∀ u s g s' g' p, G s g → G s' g' → R u s g s' g' → L u s g p → L u s' g' p)
    (hc : S.Reachable c) :
    ∃ g, G c.sh g ∧ ∀ t, L t c.sh g (c.pc t) := by
  induction hc with
  | start => exact hinit
  | @step c c' t _ hm ih =>
    obtain ⟨g, hG, hL⟩ := ih
    obtain ⟨s', p', hs, rfl⟩ := hm
    obtain ⟨g', hG', hL', hR⟩ := hstep t c.sh g (c.pc t) s' p' hG (hL t) hs
    refine ⟨g', hG', fun u => ?_⟩
    by_cases hu : u = t
    · subst hu
      simpa using hL'
    · simpa [update_of_ne hu] using
        hstable u c.sh g s' g' (c.pc u) hG hG' (hR u hu) (hL u)

end System

end Interleave
