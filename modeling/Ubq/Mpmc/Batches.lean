/-
# Concurrent batches never interleave

A `push_batch` reserves all its positions with one CAS, so the reservations in
the log are the batches, one after the other.  `own_batches` says that those of
one thread are its finished calls in program order, followed by the one it is
writing.  After a run of producers only, the queue therefore holds a merge of
their batches; what a drain of the queue returns is given by `solo_ok`.
-/
import Ubq.Mpmc.Progress

namespace Mpmc

open Function Interleave

open Interleave.System (Takes)

variable {T : Type*} {cfg : Config} {t u : Tid} {s s' : Shared T} {g g' : Ghost T}
  {o : Origin T}
variable {pc : Pc T} {act : Act T} {op : Op T} {q₀ : List T} {res : Res T}

/-! ## Program order -/

/-- The batches that `u` has pushed, in program order; a push of nothing is none. -/
def batchesOf (calls : List (Tid × Op T × Res T)) (u : Tid) : List (List T) :=
  calls.filterMap fun e => match e with
    | (v, .pushBatch items, _) => if v = u ∧ items ≠ [] then some items else none
    | _ => none

theorem batchesOf_append (calls : List (Tid × Op T × Res T)) (u : Tid)
    (e : Tid × Op T × Res T) : batchesOf (calls ++ [e]) u = batchesOf calls u ++ batchesOf [e] u :=
  List.filterMap_append

/-- The reservations of `u` and their items, in the order in which they were won. -/
def reservedBy (new : List (Tid × ℕ × List (Option T))) (u : Tid) : List (List (Option T)) :=
  (new.filter fun e => e.1 = u).map fun e => e.2.2

theorem reservedBy_append (new : List (Tid × ℕ × List (Option T))) (u : Tid)
    (e : Tid × ℕ × List (Option T)) :
    reservedBy (new ++ [e]) u = reservedBy new u ++ (if e.1 = u then [e.2.2] else []) := by
  unfold reservedBy
  rw [List.filter_append, List.map_append, List.filter_singleton]
  split <;> simp_all

/-- A return adds the items of the call that ends to the finished batches. -/
theorem Returns.placed
    (h : Returns s act pc op res) :
    (batchesOf [(t, op, res)] t).map (List.map some) = pc.placed.toList := by
  cases h with
  | push p items hret hitems hne =>
    show _ = [p.items]
    rw [hitems]
    simp [batchesOf, hne]
  | popDone _ it hit =>
    cases pc with
    | iConsume | iPool | iFree => rfl
    | _ => simp [Pc.iter?] at hit
  | _ => simp [batchesOf, Pc.placed]

theorem batchesOf_other (hu : u ≠ t) : batchesOf [(t, op, res)] u = [] := by
  cases op <;> simp [batchesOf, hu.symm]

/-! ## Runs of producers -/

/-- The choices of a scheduler of producers. -/
def Act.Pushes : Act T → Prop
  | .call (.pushBatch _) | .run | .spurious | .alloc _ => True
  | .call (.popBatch ..) | .call .isEmpty => False

/-- The runs from `c₀` on in which nothing but `push_batch` is called. -/
def Producing (cfg : Config) (c₀ c : Conf T) : Prop :=
  Relation.ReflTransGen (fun c c' => ∃ t act, Act.Pushes act ∧ Takes (step cfg) t act c c') c₀ c

theorem give_log (s : Shared T) (l l' : List Addr) : (s.give l l').1.log = s.log :=
  (give_history s l l').2

/-- What a producer writes to the log. -/
inductive Adds (t : Tid) (s s' : Shared T) : Prop
  | nothing : s'.log = s.log → Adds t s s'
  | batch (p : ℕ) (items : List (Option T)) : s'.log = s.log.reserve t p items → Adds t s s'

theorem Adds.claims (h : Adds t s s') : s'.log.claims = s.log.claims := by
  cases h with
  | nothing h => rw [h]
  | batch p items h => rw [h, Log.reserve_claims]

theorem deref_adds {p : Option Addr} {k : Addr → Shared T × Pc T} (hk : ∀ a, (k a).1.log = s.log) :
    Post (fun r => Adds t s r.1) (deref s p k) :=
  deref_post (fun _ => .nothing rfl) fun a _ => .nothing (hk a)

/-- The steps of `push_batch` claim nothing. -/
theorem push_adds (hpc : pc.popping = false) :
    Post (fun r => Adds t s r.1) (step cfg t .run s pc) := by
  cases pc with
  | pLoad | pInitSwap | pInitCas | eLoad | eSpin =>
    simp only [step, stepWith]
    split <;> exact Adds.nothing rfl
  | pCas p phead =>
    simp only [step, stepWith]
    split
    · exact Adds.batch _ _ rfl
    · exact Adds.nothing rfl
  | pSwap p phead need =>
    simp only [step, stepWith]
    split
    · exact Adds.nothing rfl
    · exact Adds.nothing (give_log _ _ _)
  | pNext w | pWait f =>
    refine deref_adds fun a => ?_
    split <;> exact rfl
  | pLink | pWrite => exact deref_adds fun a => rfl
  | pDrop p =>
    simp only [step, stepWith]
    split
    · cases hret : p.ret with
      | user items => exact Adds.nothing rfl
      | fill q chead =>
        refine Adds.nothing ?_
        simp only [pushed, iterOn]
        split <;> exact rfl
    · exact Adds.nothing rfl
  | pInitStore | pReload | pStore => exact Adds.nothing rfl
  | idle | fault | pInitAlloc | pAlloc => trivial
  | _ => simp [Pc.popping] at hpc

/-- A thread inside a `push_batch`, or idle. -/
def Pc.Pushing (pc : Pc T) : Prop := ∀ op, pc.op = some op → ∃ items, op = .pushBatch items

theorem Pc.Pushing.not_popping (h : pc.Pushing) : pc.popping = false := by
  cases pc
  case idle | fault | pLoad | pInitSwap | pInitAlloc | pInitCas | pInitStore | pReload | pSwap
    | pAlloc | pCas | pNext | pLink | pStore | pWait | pWrite | pDrop | eLoad | eSpin => rfl
  all_goals
    obtain ⟨items, hitems⟩ := h _ rfl
    cases hitems

/-- The scheduler of producers keeps every thread inside `push_batch`. -/
theorem pushing_op (h : pc.Pushing) (hact : act.Pushes)
    (hop : act.op pc = some op) : ∃ items, op = .pushBatch items := by
  cases act with
  | call op' =>
    obtain rfl := Option.some.inj hop
    cases op' with
    | pushBatch items => exact ⟨items, rfl⟩
    | popBatch size keep => exact hact.elim
    | isEmpty => exact hact.elim
  | _ => exact h op hop

theorem step_adds (h : pc.Pushing) (hact : act.Pushes)
    {r : Shared T × Pc T} (hs : step cfg t act s pc = some r) : Adds t s r.1 := by
  apply Post.of hs
  apply step_cases
  case call =>
    rintro op rfl rfl
    cases op with
    | pushBatch items =>
      simp only [step, stepWith]
      split <;> exact Adds.nothing rfl
    | popBatch size keep => exact hact.elim
    | isEmpty => exact hact.elim
  case run => exact fun _ => push_adds h.not_popping
  case pCas => exact fun _ _ _ _ => .nothing rfl
  case cCas =>
    rintro q chead new - rfl
    exact absurd h.not_popping (by simp [Pc.popping])
  case pInitAlloc => exact fun _ _ _ _ _ => .nothing rfl
  case pAlloc =>
    intro as p phead need _ _ _ _ _
    exact .nothing ((give_log _ _ _).trans (newChain_history s as).2)

/-! ## What the producers leave -/

/-- Since `c₀` the producers have won the reservations `new` and finished the
`calls`; those of one thread agree, in program order. -/
structure Produced (cfg : Config) (c₀ c : Conf T) (new : List (Tid × ℕ × List (Option T)))
    (calls : List (Tid × Op T × Res T)) : Prop where
  calm : (calm T cfg).Reachable c
  pushing : ∀ u, (c.pc u).Pushing
  claims : c.sh.log.claims = c₀.sh.log.claims
  resv : c.sh.log.reservations = c₀.sh.log.reservations ++ new
  trace : c.sh.trace = c₀.sh.trace ++ calls
  own : ∀ u, reservedBy new u = (batchesOf calls u).map (List.map some) ++ (c.pc u).placed.toList

theorem Rests.produced {c₀ : Conf T} (h : Rests cfg c₀ q₀) : Produced cfg c₀ c₀ [] [] where
  calm := h.calm
  pushing := fun u op hop => by
    rw [h.idle u] at hop
    simp [Pc.op] at hop
  claims := rfl
  resv := (List.append_nil _).symm
  trace := (List.append_nil _).symm
  own := fun u => by
    rw [h.idle u]
    rfl

/-- One step of a producer. -/
theorem Produced.takes {c₀ c c' : Conf T} {new : List (Tid × ℕ × List (Option T))}
    {calls : List (Tid × Op T × Res T)} (h : Produced cfg c₀ c new calls)
    (hact : act.Pushes) (hm : Takes (step cfg) t act c c') :
    ∃ new' calls', Produced cfg c₀ c' new' calls' := by
  obtain ⟨g, hI, hL⟩ := run_ok h.calm
  obtain ⟨s', p', hs, rfl⟩ := hm
  have haba : AbaFree t c.sh (c.pc t) := by
    have hnot := (h.pushing t).not_popping
    cases hpc : c.pc t with
    | cCas q chead new =>
      rw [hpc] at hnot
      simp [Pc.popping] at hnot
    | _ => trivial
  have hcalm : (Mpmc.calm T cfg).Reachable ⟨s', update c.pc t p'⟩ :=
    h.calm.step (t := t) ⟨s', p', ⟨⟨act, hs⟩, haba⟩, rfl⟩
  have hclaims := (step_adds (h.pushing t) hact hs).claims.trans h.claims
  have heff := step_effect hI (hL t) hs
  have hpush : ∀ u, (update c.pc t p' u).Pushing := by
    intro u op hop
    by_cases hu : u = t
    · subst hu
      rw [update_self] at hop
      cases heff with
      | quiet _ _ _ hsame => exact pushing_op (h.pushing u) hact (hsame ▸ hop)
      | reserves _ _ _ _ _ _ hsame => exact pushing_op (h.pushing u) hact (hsame ▸ hop)
      | returns _ _ _ _ hidle _ =>
        have : p' = .idle := hidle
        rw [this] at hop
        simp [Pc.op] at hop
    · rw [update_of_ne hu] at hop
      exact h.pushing u op hop
  cases heff with
  | quiet htr hresv hplaced _ =>
    refine ⟨new, calls, hcalm, hpush, hclaims, hresv.trans h.resv, htr.trans h.trace, fun u => ?_⟩
    by_cases hu : u = t
    · subst hu
      show _ = _ ++ (update c.pc u p' u).placed.toList
      rw [update_self, show p'.placed = _ from hplaced]
      exact h.own u
    · show _ = _ ++ (update c.pc t p' u).placed.toList
      rw [update_of_ne hu]
      exact h.own u
  | reserves pos items htr hresv hnone hplaced _ =>
    refine ⟨new ++ [(t, pos, items)], calls, hcalm, hpush, hclaims, ?_, htr.trans h.trace,
      fun u => ?_⟩
    · rw [show s'.log.reservations = _ from hresv, h.resv, List.append_assoc]
    · rw [reservedBy_append, h.own u]
      by_cases hu : u = t
      · subst hu
        show _ = _ ++ (update c.pc u p' u).placed.toList
        rw [update_self, show p'.placed = _ from hplaced, hnone]
        simp
      · show _ = _ ++ (update c.pc t p' u).placed.toList
        rw [update_of_ne hu, if_neg (fun hc => hu hc.symm), List.append_nil]
  | returns op res htr hresv hidle hret =>
    refine ⟨new, calls ++ [(t, op, res)], hcalm, hpush, hclaims, hresv.trans h.resv, ?_,
      fun u => ?_⟩
    · rw [show s'.trace = _ from htr, h.trace, List.append_assoc]
    · rw [batchesOf_append, List.map_append, h.own u, List.append_assoc]
      by_cases hu : u = t
      · subst hu
        show _ = _ ++ (_ ++ (update c.pc u p' u).placed.toList)
        rw [update_self, show p' = .idle from hidle, hret.placed]
        simp [Pc.placed]
      · show _ = _ ++ (_ ++ (update c.pc t p' u).placed.toList)
        rw [update_of_ne hu, batchesOf_other hu]
        simp

/-- **The reservations of a thread are its batches in program order.** -/
theorem own_batches {c₀ c : Conf T} (h₀ : Rests cfg c₀ q₀)
    (h : Producing cfg c₀ c) : ∃ new calls, Produced cfg c₀ c new calls := by
  induction h with
  | refl => exact ⟨[], [], h₀.produced⟩
  | tail _ hm ih =>
    obtain ⟨new, calls, hp⟩ := ih
    obtain ⟨t, act, hact, htakes⟩ := hm
    exact hp.takes hact htakes

/-- The batches behind the reservations. -/
def batches (new : List (Tid × ℕ × List (Option T))) : List (Tid × List T) :=
  new.map fun e => (e.1, e.2.2.filterMap id)

theorem filterMap_some (l : List T) : (l.map some).filterMap id = l := by
  rw [List.filterMap_map]
  simp

/-- The queue after the producers have finished: the old values, and a merge of
their batches. -/
theorem Produced.rests {c₀ c : Conf T}
    {new : List (Tid × ℕ × List (Option T))} {calls : List (Tid × Op T × Res T)}
    (h₀ : Rests cfg c₀ q₀) (h : Produced cfg c₀ c new calls) (hidle : ∀ u, c.pc u = .idle) :
    (∀ u, ((batches new).filter fun e => e.1 = u).map (fun e => e.2) = batchesOf calls u) ∧
      Rests cfg c (q₀ ++ ((batches new).map fun e => e.2).flatten) := by
  have hown : ∀ u, reservedBy new u = (batchesOf calls u).map (List.map some) := by
    intro u
    have := h.own u
    rw [hidle u] at this
    exact this.trans (List.append_nil _)
  refine ⟨fun u => ?_, h.calm, hidle, ?_⟩
  · have hmap : ((batches new).filter fun e => e.1 = u).map (fun e => e.2)
        = (reservedBy new u).map (List.filterMap id) := by
      unfold batches reservedBy
      rw [List.filter_map, List.map_map, List.map_map]
      rfl
    rw [hmap, hown u, List.map_map]
    conv_rhs => rw [← List.map_id (batchesOf calls u)]
    exact List.map_congr_left fun l _ => filterMap_some l
  · have hsome : ∀ e ∈ new, (e.2.2.filterMap id).map some = e.2.2 := by
      intro e he
      have hmem : e.2.2 ∈ reservedBy new e.1 :=
        List.mem_map.mpr ⟨e, List.mem_filter.mpr ⟨he, by simp⟩, rfl⟩
      rw [hown e.1] at hmem
      obtain ⟨l, _, hl⟩ := List.mem_map.mp hmem
      rw [← hl, filterMap_some]
    have hsent : c.sh.log.sent = c₀.sh.log.sent ++ (new.map fun e => e.2.2).flatten := by
      unfold Log.sent
      rw [h.resv, List.map_append, List.flatten_append]
    have hlen : c.sh.log.claimedLen = c₀.sh.log.claimedLen := by
      unfold Log.claimedLen
      rw [h.claims]
    obtain ⟨g, hI, _⟩ := run_ok h₀.calm
    unfold Shared.contents
    rw [hsent, hlen, List.drop_append_of_le_length (claimedLen_le hI), List.map_append]
    congr 1
    · exact h₀.holds
    · unfold batches
      rw [List.map_map, List.map_flatten, List.map_map]
      congr 1
      exact List.map_congr_left fun e he => (hsome e he).symm

/-! ## Draining -/

theorem Behaves.length_le {tr : List (Tid × Op T × Res T)} {q : List T} (h : Behaves o tr q) :
    o.trace.length ≤ tr.length ∧ (tr.length = o.trace.length → q = o.queue) := by
  induction h with
  | start => exact ⟨le_refl _, fun _ => rfl⟩
  | call t op _ ih =>
    rw [List.length_append, List.length_singleton]
    exact ⟨by omega, fun hc => by omega⟩

/-- The first call since the origin has the result of its list operation. -/
theorem Behaves.first {q : List T}
    (h : Behaves o (o.trace ++ [(t, op, res)]) q) : (res, q) = op.spec o.queue := by
  generalize htr : o.trace ++ [(t, op, res)] = tr at h
  cases h with
  | start => exact absurd htr (by simp)
  | @call tr' q' t' op' h' =>
    have hlen := congrArg List.length htr
    simp only [List.length_append, List.length_singleton] at hlen
    obtain rfl : q' = o.queue := h'.length_le.2 (by omega)
    obtain ⟨_, hlast⟩ := List.append_inj htr (by omega)
    simp only [List.cons.injEq, Prod.mk.injEq, and_true] at hlast
    obtain ⟨_, rfl, rfl⟩ := hlast
    rfl

/-- **Concurrent batches never interleave.**  From a queue at rest that holds `q₀`,
let any number of producers run until all have returned.  Their batches can be
merged into one list, each producer's in program order, such that the queue holds
`q₀` followed by the batches one after the other: so behaves every run of one
thread from then on, and a `pop_batch` of any size returns the front of it. -/
theorem batches_merge {c₀ c : Conf T} (h₀ : Rests cfg c₀ q₀)
    (h : Producing cfg c₀ c) (hidle : ∀ u, c.pc u = .idle) :
    ∃ (calls : List (Tid × Op T × Res T)) (merged : List (Tid × List T)),
      c.sh.trace = c₀.sh.trace ++ calls ∧
      (∀ u, (merged.filter fun e => e.1 = u).map (fun e => e.2) = batchesOf calls u) ∧
      (∀ t c', Solo cfg t c c' → c'.pc t = .idle → ∃ q,
        Behaves ⟨c.sh.trace, q₀ ++ (merged.map fun e => e.2).flatten⟩ c'.sh.trace q ∧
        c'.sh.contents = q.map some) ∧
      ∀ t size, ∃ sched c', Completes cfg t (.popBatch size size) c sched c'
        (.popped (min size (q₀ ++ (merged.map fun e => e.2).flatten).length)
          ((q₀ ++ (merged.map fun e => e.2).flatten).take size)) := by
  obtain ⟨new, calls, hp⟩ := own_batches h₀ h
  obtain ⟨hmerge, hrests⟩ := hp.rests h₀ hidle
  refine ⟨calls, batches new, hp.trace, hmerge, fun t c' hsolo hend => ?_, fun t size => ?_⟩
  · have hlone := (solo_ok hrests hsolo).solo
    rw [hend] at hlone
    exact hlone
  · obtain ⟨sched, c', res, hcomp, hlone⟩ := call_completes hrests.lone (hidle t)
      (.popBatch size size)
    have hsolo := hlone.solo
    rw [hcomp.idle] at hsolo
    obtain ⟨q, hq, _⟩ := hsolo
    rw [hcomp.trace] at hq
    obtain ⟨hres, _⟩ := Prod.mk.inj hq.first
    refine ⟨sched, c', ?_⟩
    rw [hres, List.take_take, min_self] at hcomp
    exact hcomp

theorem producing_of_runs {sched : List (Tid × Act T)} (hp : ∀ e ∈ sched, e.2.Pushes)
    {c c' : Conf T} (h : System.runs (step cfg) sched c = some c') :
    Producing cfg c c' := by
  induction sched generalizing c with
  | nil =>
    cases h
    exact .refl
  | cons e rest ih =>
    simp only [System.runs] at h
    split at h
    · cases h
    · rename_i s' p' hstep
      exact .head ⟨e.1, e.2, hp e (by simp), s', p', hstep, rfl⟩
        (ih (fun e he => hp e (by simp [he])) h)

/-- Two producers race for the first block; the batch of thread `1` comes first. -/
theorem batches_merge_race : ∃ c : Conf ℕ, Producing twoSlots (system ℕ twoSlots).start c ∧
    (∀ u, c.pc u = .idle) ∧ c.sh.log.sent = [some 4, some 1, some 2, some 3] ∧
    ∃ merged : List (Tid × List ℕ),
      (∀ u, (merged.filter fun e => e.1 = u).map (fun e => e.2) = batchesOf c.sh.trace u) ∧
      ∀ t size, ∃ sched c', Completes twoSlots t (.popBatch size size) c sched c'
        (.popped (min size (merged.map fun e => e.2).flatten.length)
          ((merged.map fun e => e.2).flatten.take size)) := by
  let sched : List (Tid × Act ℕ) := calls 0 (.pushBatch [1, 2, 3]) 2 ++ [(0, .alloc [100])] ++
    calls 1 (.pushBatch [4]) 2 ++ [(1, .alloc [101])] ++ steps 1 5 ++ steps 0 3 ++
    [(0, .alloc [102])] ++ steps 0 13
  obtain ⟨c, hexec, h0, h1, hsent⟩ : ∃ c, exec twoSlots sched = some c ∧ c.pc 0 = .idle ∧
      c.pc 1 = .idle ∧ c.sh.log.sent = [some 4, some 1, some 2, some 3] :=
    ⟨_, rfl, rfl, rfl, by decide +kernel⟩
  have hprod : Producing twoSlots (system ℕ twoSlots).start c :=
    producing_of_runs (by simp [sched, calls, steps, Act.Pushes]) hexec
  have hidle : ∀ u, c.pc u = .idle := by
    intro u
    by_cases hu0 : u = 0
    · rw [hu0, h0]
    · by_cases hu1 : u = 1
      · rw [hu1, h1]
      · refine (System.runs_other (fun e he => ?_) hexec).trans rfl
        have hthread : e.1 = 0 ∨ e.1 = 1 := by
          revert e
          decide +kernel
        rcases hthread with h | h
        · exact h ▸ Ne.symm hu0
        · exact h ▸ Ne.symm hu1
  obtain ⟨calls, merged, htr, hmerge, _, hdrain⟩ := batches_merge rests_start hprod hidle
  have htr' : c.sh.trace = calls := htr
  exact ⟨c, hprod, hidle, hsent, merged, htr' ▸ hmerge, hdrain⟩

end Mpmc
