/-
# The steps of the workers

What a step of a producer or a consumer preserves.  The barrier calls are treated
once for both (`enter_start`, `pass_start`, `enter_finish`); a send and a receive
move the account of the round.
-/
import Ubq.Bench.Probe.Inv

namespace Bench.Probe

open Function

variable {cfg : Config} {t u : Thread} {i j : ℕ} {s s' : Shared} {g g' : Ghost}
variable {n : ℕ} {pending : List ℕ} {pc : Pc} {after : Bool} {mode : Mode} {gate : Gate}
  {count received : ℕ}

/-! ## Stability -/

/-- Nobody else moves a worker that waits. -/
theorem waiting_stable (hR : WorkerRely cfg t s g s' g') (h : Waiting s g t n) :
    Waiting s' g' t n := by
  unfold Waiting at h ⊢
  rwa [hR.working, hR.waits, hR.waits]

/-- Nobody else moves a producer inside a round. -/
theorem busy_stable (hR : WorkerRely cfg (.producer i) s g s' g') (h : Busy s g i n) :
    Busy s' g' i n := by
  unfold Busy at h ⊢
  rwa [hR.working, hR.waits, hR.waits]

/-- A producer's assertion survives the steps of the others. -/
theorem producer_stable (hR : WorkerRely cfg (.producer i) s g s' g')
    (hl : AtProducer cfg i s g pc) : AtProducer cfg i s' g' pc := by
  have hstay : Busy s g i 0 → s'.action = s.action ∧ g'.sent i = g.sent i ∧
      s'.producerSlot i = s.producerSlot i :=
    fun h => ⟨(hR.steady h.1).action, hR.own h.1⟩
  cases pc with
  | spawn | startEnter | endWait | startWait => exact waiting_stable hR hl
  | finishedWait | endEnter => exact busy_stable hR hl
  | load | send | store | finishedEnter =>
    obtain ⟨haction, hsent, hslot⟩ := hstay hl.1
    refine ⟨busy_stable hR hl.1, ?_⟩
    simp only [haction, hsent, hslot]
    exact hl.2
  | _ => trivial

/-- A consumer's account is its own. -/
theorem account_stable (hR : WorkerRely cfg (.consumer j) s g s' g')
    (h : Account s g j n pending) : Account s' g' j n pending := by
  obtain ⟨hw, hstop, hn, hp⟩ := h
  obtain ⟨hgot, hpending, _⟩ := hR.own hw
  exact ⟨hR.working.trans hw, (hR.steady hw).action ▸ hstop, hn.trans hgot.symm,
    hpending.trans hp⟩

/-- A consumer's assertion survives the steps of the others. -/
theorem consumer_stable (hR : WorkerRely cfg (.consumer j) s g s' g')
    (hl : AtConsumer cfg j s g pc) : AtConsumer cfg j s' g' pc := by
  cases pc with
  | spawn | startEnter | endWait | startWait => exact waiting_stable hR hl
  | load =>
    obtain ⟨hgot, hpending, _⟩ := hR.own hl.1
    refine ⟨hR.working.trans hl.1, ?_⟩
    rw [(hR.steady hl.1).action, hgot, hpending]
    exact hl.2
  | recv count received after =>
    obtain ⟨hacc, hrecv, hafter⟩ := hl
    have hst := hR.steady hacc.1
    exact ⟨account_stable hR hacc, hst.action ▸ hrecv, fun h => hst.done (hafter h)⟩
  | visit count received after pending =>
    obtain ⟨hacc, hrecv, hafter, hverify⟩ := hl
    have hst := hR.steady hacc.1
    exact ⟨account_stable hR hacc, hst.action ▸ hrecv, fun h => hst.done (hafter h), hverify⟩
  | mark => exact hl
  | poll count after =>
    obtain ⟨hacc, hrecv, hafter⟩ := hl
    have hst := hR.steady hacc.1
    exact ⟨account_stable hR hacc, hst.action ▸ hrecv,
      fun h => ⟨hst.done (hafter h).1, hst.drained (hafter h).2⟩⟩
  | store count =>
    obtain ⟨hacc, hdrained⟩ := hl
    have hst := hR.steady hacc.1
    exact ⟨account_stable hR hacc, fun h => hst.drained (hdrained (hst.action ▸ h))⟩
  | endEnter =>
    obtain ⟨hacc, hdrained⟩ := hl
    have hst := hR.steady hacc.1
    refine ⟨?_, fun h => hst.drained (hdrained (hst.action ▸ h))⟩
    rw [(hR.own hacc.1).2.2]
    exact account_stable hR hacc
  | _ => trivial

/-- What a round leaves behind is read off the data. -/
theorem after_frozen (hF : Frozen s g s' g') (h : After cfg s g mode) :
    After cfg s' g' mode := by
  cases mode <;> simp only [After, Complete, hF.queue, hF.recvLog, hF.sent] at h ⊢ <;> exact h

/-- So is whether the next round is ready. -/
theorem ready_frozen (hF : Frozen s g s' g') (h : Ready cfg s g mode) :
    Ready cfg s' g' mode := by
  obtain ⟨hrun, hgood, hrecv, hvisited, hgot, hdrain, hother⟩ := h
  constructor
  all_goals simpa only [Complete, hF.badValue, hF.recvLog, hF.visited, hF.got, hF.pending, hF.sent,
    hF.sentLog]

/-- So is the account of a round that is over. -/
theorem over_frozen (hF : Frozen s g s' g') (h : Over cfg s g mode) : Over cfg s' g' mode := by
  obtain ⟨hafter, hrun, hproducers, hconsumers, hseen, hgood⟩ := h
  refine ⟨after_frozen hF hafter, hrun, ?_, ?_, ?_, ?_⟩
  all_goals simpa only [hF.producerSlot, hF.consumerSlot, hF.got, hF.pending, hF.seen, hF.visited,
    hF.badValue]

/-- So is which values have been cleared. -/
theorem cleared_frozen (hF : Frozen s g s' g') (h : Cleared s n) : Cleared s' n := by
  unfold Cleared
  rwa [hF.seen]

/-- The coordinator's calls are its own. -/
theorem calls_stable {a b c : ℕ} (hR : CoordinatorRely s g s' g') (h : Calls s g a b c) :
    Calls s' g' a b c := by
  unfold Calls at h ⊢
  rwa [hR.waits, hR.waits, hR.waits, hR.rounds]

/-- The coordinator's assertion survives the steps of the workers. -/
theorem coordinator_stable (hR : CoordinatorRely s g s' g')
    (hl : AtCoordinator cfg s g pc) : AtCoordinator cfg s' g' pc := by
  have hfrozen : Calls s g 0 0 0 → Frozen s g s' g' := fun h => hR.frozen h.1
  cases pc with
  | spawn =>
    refine ⟨calls_stable hR hl.1, ?_⟩
    rw [(hfrozen hl.1).queue]
    exact hl.2
  | rest last => exact ⟨calls_stable hR hl.1, hl.2.1, after_frozen (hfrozen hl.1) hl.2.2⟩
  | clear mode k =>
    obtain ⟨hc, hready, hk, hclear⟩ := hl
    exact ⟨calls_stable hR hc, ready_frozen (hfrozen hc) hready, hk,
      cleared_frozen (hfrozen hc) hclear⟩
  | setDone mode =>
    obtain ⟨hc, hready, hclear⟩ := hl
    exact ⟨calls_stable hR hc, ready_frozen (hfrozen hc) hready,
      cleared_frozen (hfrozen hc) hclear⟩
  | setAction mode =>
    obtain ⟨hc, hready, hclear, hdone⟩ := hl
    exact ⟨calls_stable hR hc, ready_frozen (hfrozen hc) hready,
      cleared_frozen (hfrozen hc) hclear, hR.done.trans hdone⟩
  | openEnter mode =>
    obtain ⟨hc, hready, hclear, hdone, haction⟩ := hl
    exact ⟨calls_stable hR hc, ready_frozen (hfrozen hc) hready,
      cleared_frozen (hfrozen hc) hclear, hR.done.trans hdone, hR.action.trans haction⟩
  | openWait mode | allSentEnter mode | allSentWait mode | closeEnter mode | closeWait mode =>
    exact ⟨calls_stable hR hl.1, hR.action.trans hl.2.1, hl.2.2⟩
  | publishDone mode =>
    obtain ⟨hc, haction, hrun, hfin⟩ := hl
    refine ⟨calls_stable hR hc, hR.action.trans haction, hrun, fun i hi => ?_⟩
    rw [hR.rounds]
    exact (hfin i hi).trans (hR.mono _ _)
  | sumSent mode i sent =>
    obtain ⟨hc, hover, hi, hsum⟩ := hl
    refine ⟨calls_stable hR hc, over_frozen (hfrozen hc) hover, hi, ?_⟩
    rwa [(hfrozen hc).producerSlot]
  | sumReceived mode j sent received =>
    obtain ⟨hc, hover, hsent, hj, hsum⟩ := hl
    refine ⟨calls_stable hR hc, over_frozen (hfrozen hc) hover, ?_, hj, ?_⟩
    · rwa [(hfrozen hc).producerSlot]
    · rwa [(hfrozen hc).consumerSlot]
  | checkBad mode | checkSeen mode k =>
    exact ⟨calls_stable hR hl.1, over_frozen (hfrozen hl.1) hl.2.1, hl.2.2⟩
  | missing | detail | failed => exact hl
  | stopEnter => exact ⟨calls_stable hR hl.1, hR.action.trans hl.2⟩
  | _ => trivial

/-- Every thread's assertion survives what the others may do. -/
theorem local_stable (hR : Rely cfg t s g s' g') (hl : Local cfg t s g pc) :
    Local cfg t s' g' pc := by
  cases t with
  | producer i => exact producer_stable hR hl
  | consumer j => exact consumer_stable hR hl
  | coordinator => exact coordinator_stable hR hl

/-! ## Calls of the barriers -/

/-- The step of `t` to `s'` and `pc` re-establishes the outline. -/
def Kept (cfg : Config) (t : Thread) (s : Shared) (g : Ghost) (s' : Shared) (pc : Pc) : Prop :=
  ∃ g', Inv cfg s' g' ∧ Local cfg t s' g' pc ∧
    ∀ u, u ≠ t → Worker cfg u ∨ u = .coordinator → Rely cfg u s g s' g'

theorem enter_waits (s : Shared) (gate : Gate) (t : Thread) (gate' : Gate) (u : Thread) :
    (s.enter gate t).waits gate' u =
      if gate' = gate ∧ u = t then s.waits gate t + 1 else s.waits gate' u := rfl

/-- A call of `t` is counted for `t`, -/
theorem enter_self : (s.enter gate t).waits gate t = s.waits gate t + 1 := by
  simp [enter_waits]

/-- for nobody else, -/
theorem enter_other {gate gate' : Gate} (hu : u ≠ t) :
    (s.enter gate t).waits gate' u = s.waits gate' u := by
  simp [enter_waits, hu]

/-- and at that barrier alone. -/
theorem enter_gate {gate gate' : Gate} (hgate : gate' ≠ gate) :
    (s.enter gate t).waits gate' u = s.waits gate' u := by
  simp [enter_waits, hgate]

/-- The counts only grow. -/
theorem enter_le {gate gate' : Gate} : s.waits gate' u ≤ (s.enter gate t).waits gate' u := by
  rw [enter_waits]
  split
  · rename_i h
    rw [h.1, h.2]
    omega
  · exact le_rfl

/-- The coordinator is not a worker. -/
theorem worker_ne (ht : Worker cfg t) : Thread.coordinator ≠ t := by
  rintro rfl
  exact ht

/-- The two kinds of rely. -/
theorem Rely.of (hworker : u ≠ .coordinator → WorkerRely cfg u s g s' g')
    (hcoord : u = .coordinator → CoordinatorRely s g s' g') : Rely cfg u s g s' g' := by
  cases u with
  | producer i => exact hworker (by simp)
  | consumer j => exact hworker (by simp)
  | coordinator => exact hcoord rfl

/-- A step that changes nothing but the calls of `t` and whether it works. -/
structure Idles (t : Thread) (s : Shared) (g : Ghost) (s' : Shared) (g' : Ghost) : Prop where
  others : ∀ gate u, u ≠ t → s'.waits gate u = s.waits gate u
  mono : ∀ gate, s.waits gate t ≤ s'.waits gate t
  rounds : g'.rounds = g.rounds
  working : ∀ u, u ≠ t → g'.working u = g.working u
  action : s'.action = s.action
  done : s'.done = s.done
  frozen : Frozen s g s' g'

theorem Frozen.refl (s : Shared) (g : Ghost) : Frozen s g s g :=
  ⟨rfl, rfl, rfl, rfl, rfl, rfl, rfl, rfl, rfl, rfl, rfl⟩

/-- Nobody notices such a step. -/
theorem idles_rely (h : Idles t s g s' g') :
    ∀ u, u ≠ t → Worker cfg u ∨ u = .coordinator → Rely cfg u s g s' g' := by
  intro u hu _
  refine .of (fun _ => ?_) ?_
  · refine ⟨fun gate => h.others gate u hu, h.working u hu, fun _ => ⟨h.action, ?_, ?_⟩,
      fun _ => ?_⟩
    · rw [h.done]
      exact id
    · unfold Drained Complete
      rw [h.frozen.queue, h.frozen.sent]
      exact id
    · cases u with
      | producer i => exact ⟨congrFun h.frozen.sent i, congrFun h.frozen.producerSlot i⟩
      | consumer j =>
        exact ⟨congrFun h.frozen.got j, congrFun h.frozen.pending j,
          congrFun h.frozen.consumerSlot j⟩
      | coordinator => trivial
  · rintro rfl
    refine ⟨fun gate => h.others gate _ hu, h.rounds, h.action, h.done, fun gate u => ?_,
      fun _ => h.frozen⟩
    by_cases hut : u = t
    · subst hut
      exact h.mono gate
    · exact (h.others gate u hut).ge

/-- A call is such a step, -/
theorem enter_idles (gate : Gate) : Idles t s g (s.enter gate t) g :=
  ⟨fun _ _ hu => enter_other hu, fun _ => enter_le, rfl, fun _ _ => rfl, rfl, rfl,
    ⟨rfl, rfl, rfl, rfl, rfl, rfl, rfl, rfl, rfl, rfl, rfl⟩⟩

/-- Whether `t` works is recorded. -/
def Ghost.setWorking (g : Ghost) (t : Thread) (b : Bool) : Ghost :=
  { g with working := update g.working t b }

/-- also one with which `t` begins or ends its work. -/
theorem setWorking_idles {b : Bool} : Idles t s g (s.enter gate t) (g.setWorking t b) :=
  ⟨fun _ _ hu => enter_other hu, fun _ => enter_le, rfl,
    fun _ hu => update_of_ne hu _ _, rfl, rfl,
    ⟨rfl, rfl, rfl, rfl, rfl, rfl, rfl, rfl, rfl, rfl, rfl⟩⟩

/-- The clock of `u` reads its own calls and the coordinator's. -/
theorem Clock.congr (h : Clock s g u) (hstart : s'.waits .start u = s.waits .start u)
    (hfinish : s'.waits .finish u = s.waits .finish u)
    (hcoord : s'.waits .start .coordinator = s.waits .start .coordinator)
    (hrounds : g'.rounds = g.rounds) (hworking : g'.working u = true → g.working u = true) :
    Clock s' g' u := by
  constructor <;> simp only [hstart, hfinish, hcoord, hrounds]
  exacts [h.closed, h.ended, h.started, h.opened, fun hw => h.working (hworking hw)]

/-- No clock moves while nobody calls. -/
theorem clocks_congr (hG : Inv cfg s g) (hwaits : s'.waits = s.waits)
    (hrounds : g'.rounds = g.rounds) (hworking : g'.working = g.working) :
    ∀ u, Worker cfg u → Clock s' g' u :=
  fun u hu => (hG.clock u hu).congr (by rw [hwaits]) (by rw [hwaits]) (by rw [hwaits]) hrounds
    (by rw [hworking]; exact id)

/-- The call of `start.wait`. -/
theorem enter_start (hG : Inv cfg s g) (ht : Worker cfg t) (hl : Waiting s g t 0) :
    Inv cfg (s.enter .start t) g ∧ Waiting (s.enter .start t) g t 1 := by
  obtain ⟨hidle, hstart⟩ := hl
  have hcoord : (s.enter .start t).waits .start .coordinator = s.waits .start .coordinator :=
    enter_other (worker_ne ht)
  refine ⟨{ hG with
    rounds_le := hcoord.symm ▸ hG.rounds_le
    le_rounds := hcoord.symm ▸ hG.le_rounds
    clock := fun u hu => ?_
    round := fun hopen hstop => ?_ }, hidle, ?_⟩
  · have hclock := hG.clock u hu
    by_cases hut : u = t
    · subst hut
      refine ⟨hclock.closed, ?_, ?_, hcoord.symm ▸ hclock.opened, fun hw => ?_⟩
      · rw [enter_self]
        exact hclock.ended.trans (Nat.le_succ _)
      · rw [enter_self, hstart]
        exact le_rfl
      · simp [hidle] at hw
    · exact hclock.congr (enter_other hut) (enter_other hut) hcoord rfl id
  · have h := hG.round (hcoord.symm.trans hopen) hstop
    exact { h with }
  · rw [enter_self]
    exact congrArg Nat.succ hstart

/-- The return from `start.wait`: `t` works in the open round. -/
theorem pass_start (hG : Inv cfg s g) (ht : Worker cfg t) (hl : Waiting s g t 1)
    (hpass : s.waits .start t ≤ s.waits .start .coordinator) :
    Inv cfg s (g.setWorking t true) := by
  obtain ⟨hidle, hstart⟩ := hl
  refine { hG with
    clock := fun u hu => ?_
    finished_idle := fun i hi hw => ?_
    round := fun hopen hstop => ?_ }
  · have hclock := hG.clock u hu
    refine { hclock with working := fun hw => ?_ }
    by_cases hut : u = t
    · subst hut
      exact ⟨hstart, hpass⟩
    · exact hclock.working (by simpa [Ghost.setWorking, hut] using hw)
  · by_cases hut : Thread.producer i = t
    · subst hut
      simp [Ghost.setWorking] at hw
    · exact hG.finished_idle i hi (by simpa [Ghost.setWorking, hut] using hw)
  · have h := hG.round hopen hstop
    refine { h with unsent := fun i hi hw => ?_, ungot := fun j hj hw => ?_ }
    · by_cases hut : Thread.producer i = t
      · subst hut
        simp [Ghost.setWorking] at hw
      · exact h.unsent i hi (by simpa [Ghost.setWorking, hut] using hw)
    · by_cases hut : Thread.consumer j = t
      · subst hut
        simp [Ghost.setWorking] at hw
      · exact h.ungot j hj (by simpa [Ghost.setWorking, hut] using hw)

/-- The call of `end.wait`: `t` has left the round. -/
theorem enter_finish (hG : Inv cfg s g) (ht : Worker cfg t) (hw : g.working t = true)
    (hproducer : ∀ i, t = .producer i →
      s.waits .producersFinished t = s.waits .finish t + 1)
    (hconsumer : ∀ j, t = .consumer j → s.action ≠ .stop → s.consumerSlot j = g.got j ∧
      g.pending j = [] ∧ (s.action.receives = true → Drained cfg s g)) :
    Inv cfg (s.enter .finish t) (g.setWorking t false) ∧
      Waiting (s.enter .finish t) (g.setWorking t false) t 0 := by
  obtain ⟨hopen, hfin⟩ := busy_round hG ht hw
  have hstart := (hG.clock t ht).working hw
  have hleft : ∀ u, (g.setWorking t false).working u = false → u ≠ t → g.working u = false := by
    intro u hu hut
    simpa [Ghost.setWorking, hut] using hu
  refine ⟨{ hG with
    clock := fun u hu => ?_
    finished_ge := fun i hi => ?_
    finished_le := fun i hi => (hG.finished_le i hi).trans (Nat.succ_le_succ enter_le)
    finished_idle := fun i hi hidle => ?_
    round := fun _ hstop => ?_ }, by simp [Ghost.setWorking], ?_⟩
  · have hclock := hG.clock u hu
    by_cases hut : u = t
    · subst hut
      refine ⟨?_, ?_, ?_, ?_, fun h => ?_⟩
      · rw [enter_self]
        exact hclock.closed.trans (Nat.le_succ _)
      · rw [enter_self]
        exact hstart.1.ge
      · rw [enter_self]
        exact hclock.started.trans (Nat.le_succ _)
      · rw [enter_self]
        exact hstart.1 ▸ hstart.2
      · simp [Ghost.setWorking] at h
    · exact hclock.congr (enter_other hut) (enter_other hut) rfl rfl
        fun h => by simpa [Ghost.setWorking, hut] using h
  · by_cases hut : Thread.producer i = t
    · have h := hproducer i hut.symm
      subst hut
      rw [enter_self]
      exact h.ge
    · simp only [enter_other hut]
      exact hG.finished_ge i hi
  · by_cases hut : Thread.producer i = t
    · have h := hproducer i hut.symm
      subst hut
      rwa [enter_self]
    · simp only [enter_other hut]
      exact hG.finished_idle i hi (hleft _ hidle hut)
  · have h := hG.round hopen hstop
    refine { h with
      ended := fun j hj hend => ?_
      unsent := fun i hi hidle hend => ?_
      ungot := fun j hj hidle hend => ?_ }
    · by_cases hut : Thread.consumer j = t
      · exact hconsumer j hut.symm hstop
      · exact h.ended j hj (by rwa [enter_other hut] at hend)
    · by_cases hut : Thread.producer i = t
      · subst hut
        rw [enter_self, hfin] at hend
        exact absurd hend (Nat.succ_ne_self _)
      · exact h.unsent i hi (hleft _ hidle hut) (by rwa [enter_other hut] at hend)
    · by_cases hut : Thread.consumer j = t
      · subst hut
        rw [enter_self, hfin] at hend
        exact absurd hend (Nat.succ_ne_self _)
      · exact h.ungot j hj (hleft _ hidle hut) (by rwa [enter_other hut] at hend)
  · rw [enter_self]
    exact hstart.1

/-! ## Work in a round -/

/-- A step of `t` inside the round: it changes its own part of the account. -/
structure Works (cfg : Config) (t : Thread) (s : Shared) (g : Ghost) (s' : Shared) (g' : Ghost) :
    Prop where
  waits : s'.waits = s.waits
  rounds : g'.rounds = g.rounds
  working : g'.working = g.working
  action : s'.action = s.action
  done : s'.done = s.done
  drained : Drained cfg s g → Drained cfg s' g'
  own : ∀ u, u ≠ t → Own s g s' g' u

/-- The others rely on their own parts; the coordinator, while a round is open, on none. -/
theorem works_rely (hopen : Opened s g) (h : Works cfg t s g s' g') :
    ∀ u, u ≠ t → Worker cfg u ∨ u = .coordinator → Rely cfg u s g s' g' := by
  intro u hu _
  refine .of (fun _ => ?_) ?_
  · refine ⟨fun gate => by rw [h.waits], by rw [h.working], fun _ => ⟨h.action, ?_, h.drained⟩,
      fun _ => h.own u hu⟩
    rw [h.done]
    exact id
  · rintro rfl
    refine ⟨fun gate => by rw [h.waits], h.rounds, h.action, h.done, fun gate u => by rw [h.waits],
      fun hclosed => ?_⟩
    unfold Opened at hopen
    omega

/-- A step that changes only the program counter. -/
theorem same_kept (hG : Inv cfg s g) (hl : Local cfg t s g pc) : Kept cfg t s g s pc :=
  ⟨g, hG, hl, idles_rely ⟨fun _ _ _ => rfl, fun _ => le_rfl, rfl, fun _ _ => rfl, rfl, rfl,
    .refl s g⟩⟩

/-- A worker calls `start.wait`. -/
theorem enter_start_kept (hG : Inv cfg s g) (ht : Worker cfg t) (hl : Waiting s g t 0)
    (hlocal : Waiting (s.enter .start t) g t 1 → Local cfg t (s.enter .start t) g .startWait) :
    Kept cfg t s g (s.enter .start t) .startWait := by
  obtain ⟨hG', hl'⟩ := enter_start hG ht hl
  exact ⟨g, hG', hlocal hl', idles_rely (enter_idles .start)⟩

/-- Whoever passes a barrier passes after the coordinator has come. -/
theorem passable_coordinator (h : s.passable cfg gate t = true) :
    s.waits gate t ≤ s.waits gate .coordinator := by
  unfold Shared.passable at h
  rw [List.all_eq_true] at h
  have hmem : Thread.coordinator ∈ cfg.participants gate := by
    cases gate <;> simp [Config.participants]
  simpa using h _ hmem

/-- A worker returns from `start.wait`. -/
theorem pass_start_kept (hG : Inv cfg s g) (ht : Worker cfg t) (hl : Waiting s g t 1)
    (hpass : s.passable cfg .start t = true)
    (hlocal : Inv cfg s (g.setWorking t true) → Local cfg t s (g.setWorking t true) .load) :
    Kept cfg t s g s .load := by
  have hG' := pass_start hG ht hl (passable_coordinator hpass)
  refine ⟨g.setWorking t true, hG', hlocal hG', idles_rely ?_⟩
  exact ⟨fun _ _ _ => rfl, fun _ => le_rfl, rfl, fun _ hu => update_of_ne hu _ _, rfl, rfl,
    ⟨rfl, rfl, rfl, rfl, rfl, rfl, rfl, rfl, rfl, rfl, rfl⟩⟩

/-! ## Producers -/

/-- Producer `i` has sent `n` values. -/
def Ghost.setSent (g : Ghost) (i n : ℕ) : Ghost := { g with sent := update g.sent i n }

/-- A producer that still has something to send: the round is not complete. -/
theorem push_kept {first next : ℕ} (hG : Inv cfg s g) (hi : i < cfg.producers)
    (hl : AtProducer cfg i s g (.send first)) (hlt : first < next) (hle : next ≤ cfg.quota i) :
    Kept cfg (.producer i) s g (s.push (List.range' (cfg.base i + first) (next - first)))
      (.send next) := by
  obtain ⟨hbusy, hsends, hsent, _⟩ := hl
  have hworker : Worker cfg (.producer i) := hi
  obtain ⟨hopen, hfin⟩ := busy_round hG hworker hbusy.1
  have hstop : s.action ≠ .stop := by
    intro h
    simp [h, Mode.sends] at hsends
  have hround := hG.round hopen hstop
  have hopenC : ¬ Complete cfg g := by
    intro h
    have := h i hi
    omega
  have hset : ∀ k, k ≠ i → (g.setSent i next).sent k = g.sent k :=
    fun k hk => update_of_ne hk _ _
  have hself : (g.setSent i next).sent i = next := by simp [Ghost.setSent]
  refine ⟨g.setSent i next, { hG with
      clock := clocks_congr hG rfl rfl rfl
      logs := ?_
      nodup := ?_
      mem := fun v => ?_
      sent_le := fun k hk => ?_
      round := fun _ _ => ?_ },
    ⟨hbusy, hsends, hself, hle⟩, works_rely hopen ?_⟩
  · show s.recvLog ++ (s.queue ++ _) = s.sentLog ++ _
    rw [← List.append_assoc, hG.logs]
  · -- the new values follow those already sent by `i` and lie outside the other ranges
    refine List.Nodup.append hG.nodup List.nodup_range' ?_
    intro v hv hnew
    obtain ⟨k, hk, hbase, hv⟩ := (hG.mem v).mp hv
    rw [List.mem_range'_1] at hnew
    have hsk := hG.sent_le k hk
    have hki : k = i := range_unique ⟨hbase, by omega⟩ ⟨by omega, by omega⟩
    subst hki
    omega
  · show v ∈ s.sentLog ++ _ ↔ _
    rw [List.mem_append, hG.mem, List.mem_range'_1]
    constructor
    · rintro (⟨k, hk, hbase, hv⟩ | hv)
      · by_cases hki : k = i
        · subst hki
          exact ⟨k, hk, hbase, by rw [hself]; omega⟩
        · exact ⟨k, hk, hbase, by rwa [hset k hki]⟩
      · exact ⟨i, hi, by omega, by rw [hself]; omega⟩
    · rintro ⟨k, hk, hbase, hv⟩
      by_cases hki : k = i
      · subst hki
        rw [hself] at hv
        by_cases hold : v < cfg.base k + first
        · exact .inl ⟨k, hk, hbase, by omega⟩
        · exact .inr (by omega)
      · rw [hset k hki] at hv
        exact .inl ⟨k, hk, hbase, hv⟩
  · by_cases hki : k = i
    · subst hki
      exact hself.trans_le hle
    · exact (hset k hki).trans_le (hG.sent_le k hk)
  · refine ⟨fun hdone hrecv => absurd (hround.done hdone hrecv) hopenC,
      fun hdrain => absurd (hround.drain hdrain) hopenC, fun k hk hfinished => ?_,
      fun j hj hend => ?_, fun k hk hidle hend _ => ?_, hround.ungot, hround.untouched,
      fun hidle => ?_, hround.seen, hround.good⟩
    · have hki : k ≠ i := by
        rintro rfl
        have h := hbusy.2
        have hf : s.waits .producersFinished (.producer k) = g.rounds + 1 := hfinished
        omega
      obtain ⟨hslot, hsent⟩ := hround.finished k hk hfinished
      exact ⟨hslot, fun h => (hset k hki).trans (hsent h)⟩
    · obtain ⟨hslot, hpending, hdrained⟩ := hround.ended j hj hend
      exact ⟨hslot, hpending, fun h => absurd (hdrained h).2 hopenC⟩
    · have hki : k ≠ i := by
        rintro rfl
        have hw : g.working (.producer k) = false := hidle
        simp [hbusy.1] at hw
      exact (hset k hki).trans (hround.unsent k hk hidle hend hsends)
    · have hs : s.action = .idle := hidle
      simp [hs, Mode.sends] at hsends
  · refine ⟨rfl, rfl, rfl, rfl, rfl, fun h => absurd h.2 hopenC, fun u hu => ?_⟩
    cases u with
    | producer k => exact ⟨hset k fun h => hu (h ▸ rfl), rfl⟩
    | consumer k => exact ⟨rfl, rfl, rfl⟩
    | coordinator => trivial

/-- The store of a producer's count. -/
theorem setProducerSlot_kept {count : ℕ} (hG : Inv cfg s g) (hi : i < cfg.producers)
    (hl : AtProducer cfg i s g (.store count)) :
    Kept cfg (.producer i) s g (s.setProducerSlot i count) .finishedEnter := by
  obtain ⟨hbusy, hstop, hcount, hsent⟩ := hl
  have hworker : Worker cfg (.producer i) := hi
  obtain ⟨hopen, hfin⟩ := busy_round hG hworker hbusy.1
  have hround := hG.round hopen hstop
  refine ⟨g, { hG with clock := clocks_congr hG rfl rfl rfl, round := fun _ _ => ?_ },
    ⟨hbusy, hstop, ?_, hsent⟩,
    works_rely hopen ⟨rfl, rfl, rfl, rfl, rfl, id, fun u hu => ?_⟩⟩
  · refine { hround with finished := fun k hk hfinished => ?_ }
    have hki : k ≠ i := by
      rintro rfl
      have h := hbusy.2
      have hf : s.waits .producersFinished (.producer k) = g.rounds + 1 := hfinished
      omega
    obtain ⟨hslot, hsent⟩ := hround.finished k hk hfinished
    exact ⟨(update_of_ne hki _ _).trans hslot, hsent⟩
  · exact (update_self i count s.producerSlot).trans hcount
  · cases u with
    | producer k =>
      have hki : k ≠ i := fun h => hu (h ▸ rfl)
      exact ⟨rfl, update_of_ne hki _ _⟩
    | consumer k => exact ⟨rfl, rfl, rfl⟩
    | coordinator => trivial

/-- The call of `pdone.wait`. -/
theorem enter_finished_kept (hG : Inv cfg s g) (hi : i < cfg.producers)
    (hl : AtProducer cfg i s g .finishedEnter) :
    Kept cfg (.producer i) s g (s.enter .producersFinished (.producer i)) .finishedWait := by
  obtain ⟨hbusy, hstop, hslot, hsent⟩ := hl
  have hworker : Worker cfg (.producer i) := hi
  have hclose : ∀ k, k ≠ i → (s.enter .producersFinished (.producer i)).waits .producersFinished
      (.producer k) = s.waits .producersFinished (.producer k) :=
    fun k hk => enter_other fun h => hk (Thread.producer.inj h)
  have hself : (s.enter .producersFinished (.producer i)).waits .producersFinished (.producer i)
      = s.waits .finish (.producer i) + 1 := by
    rw [enter_self, hbusy.2]
  refine ⟨g, { hG with
      clock := fun u hu => (hG.clock u hu).congr rfl rfl rfl rfl id
      finished_ge := fun k hk => (hG.finished_ge k hk).trans enter_le
      finished_le := fun k hk => ?_
      finished_idle := fun k hk hidle => ?_
      round := fun hopen _ => ?_ }, ⟨hbusy.1, hself⟩, idles_rely (enter_idles _)⟩
  · by_cases hki : k = i
    · subst hki
      exact hself.le
    · rw [hclose k hki]
      exact hG.finished_le k hk
  · have hki : k ≠ i := by
      rintro rfl
      simp [hbusy.1] at hidle
    rw [hclose k hki]
    exact hG.finished_idle k hk hidle
  · have hround := hG.round hopen hstop
    refine { hround with finished := fun k hk hfinished => ?_ }
    by_cases hki : k = i
    · subst hki
      exact ⟨hslot, hsent⟩
    · rw [hclose k hki] at hfinished
      exact hround.finished k hk hfinished

/-- A producer leaves the round. -/
theorem enter_end_kept (hG : Inv cfg s g) (hi : i < cfg.producers)
    (hl : AtProducer cfg i s g .endEnter) :
    Kept cfg (.producer i) s g (s.enter .finish (.producer i)) .endWait := by
  have hworker : Worker cfg (.producer i) := hi
  obtain ⟨hG', hl'⟩ := enter_finish hG hworker hl.1 (fun _ _ => hl.2)
    nofun
  exact ⟨_, hG', hl', idles_rely setWorking_idles⟩

/-- A request asks for something. -/
theorem stride_pos (cfg : Config) : 0 < cfg.stride := by
  unfold Config.stride Config.request
  split
  · cases hb : cfg.batchSize with
    | none => simp
    | some size => exact cfg.batch_pos size hb
  · exact Nat.one_pos

/-- What every step of a producer preserves. -/
theorem stepProducer_kept {pc pc' : Pc} (hG : Inv cfg s g) (hi : i < cfg.producers)
    (hl : AtProducer cfg i s g pc) (hs : stepProducer cfg i s pc = some (s', pc')) :
    Kept cfg (.producer i) s g s' pc' := by
  apply Post.of_pair hs
  have hworker : Worker cfg (.producer i) := hi
  cases pc with
  | spawn => exact same_kept hG hl
  | startEnter => exact enter_start_kept hG hworker hl id
  | startWait =>
    simp only [stepProducer]
    split
    · rename_i hpass
      refine pass_start_kept hG hworker hl hpass fun hG' => ?_
      have hw : (g.setWorking (.producer i) true).working (.producer i) = true := by
        simp [Ghost.setWorking]
      refine ⟨⟨hw, hG.finished_idle i hi hl.1⟩, fun hsends => ?_⟩
      obtain ⟨hopen, hfin⟩ := busy_round hG' hworker hw
      have hstop : s.action ≠ .stop := by
        intro h
        simp [h, Mode.sends] at hsends
      exact (hG.round hopen hstop).unsent i hi hl.1 hfin hsends
    · trivial
  | load =>
    obtain ⟨hbusy, hsent⟩ := hl
    simp only [stepProducer]
    split <;> rename_i haction
    · exact same_kept hG trivial
    · exact same_kept hG ⟨hbusy, by simp [haction, Mode.sends],
        hsent (by simp [haction, Mode.sends]), Nat.zero_le _⟩
    · exact same_kept hG ⟨hbusy, by simp [haction, Mode.sends],
        hsent (by simp [haction, Mode.sends]), Nat.zero_le _⟩
    · exact same_kept hG ⟨hbusy, by simp [haction], by simp [haction, Mode.sends],
        by simp [haction, Mode.sends]⟩
    · exact same_kept hG ⟨hbusy, by simp [haction], by simp [haction, Mode.sends],
        by simp [haction, Mode.sends]⟩
  | send first =>
    simp only [stepProducer]
    split <;> rename_i hfirst
    · have hpos := stride_pos cfg
      exact push_kept hG hi hl (by omega) (Nat.min_le_right _ _)
    · obtain ⟨hbusy, hsends, hsent, hle⟩ := hl
      refine same_kept hG ⟨hbusy, ?_, by simp [hsends], fun _ => by omega⟩
      intro (h : s.action = .stop)
      simp [h, Mode.sends] at hsends
  | store count => exact setProducerSlot_kept hG hi hl
  | finishedEnter => exact enter_finished_kept hG hi hl
  | finishedWait =>
    simp only [stepProducer]
    split
    · exact same_kept hG hl
    · trivial
  | endEnter => exact enter_end_kept hG hi hl
  | endWait =>
    simp only [stepProducer]
    split
    · exact same_kept hG hl
    · trivial
  | _ => trivial

/-! ## Consumers -/

/-- Consumer `j` has received `n` values and has yet to visit `pending`. -/
def Ghost.setGot (g : Ghost) (j n : ℕ) (pending : List ℕ) : Ghost :=
  { g with got := update g.got j n, pending := update g.pending j pending }

/-- Consumer `j` has visited `v`. -/
def Ghost.visit (g : Ghost) (j v : ℕ) (pending : List ℕ) : Ghost :=
  { g with visited := g.visited ++ [v], pending := update g.pending j pending }

/-- A consumer at work in the open round. -/
theorem account_round (hG : Inv cfg s g) (hj : j < cfg.consumers)
    (h : Account s g j n pending) :
    Opened s g ∧ s.waits .finish (.consumer j) = g.rounds ∧ Round cfg s g := by
  have hworker : Worker cfg (.consumer j) := hj
  obtain ⟨hopen, hfin⟩ := busy_round hG hworker h.1
  exact ⟨hopen, hfin, hG.round hopen h.2.1⟩

/-- A consumer that has left the round is not the one at work, -/
theorem other_ended {k : ℕ} (hfin : s.waits .finish (.consumer j) = g.rounds)
    (hend : s.waits .finish (.consumer k) = g.rounds + 1) : k ≠ j := by
  rintro rfl
  omega

/-- nor is one that has not begun. -/
theorem other_idle {k : ℕ} (hw : g.working (.consumer j) = true)
    (hidle : g.working (.consumer k) = false) : k ≠ j := by
  rintro rfl
  simp [hw] at hidle

/-- A receive that takes `values` off the queue. -/
theorem pop_inv (hG : Inv cfg s g) (hj : j < cfg.consumers)
    (hl : Account s g j n []) (hrecv : s.action.receives = true)
    (hverify : cfg.verify = true → pending = s.queue.take cfg.stride) :
    Inv cfg (s.pop cfg.stride)
      (g.setGot j (n + (s.queue.take cfg.stride).length) pending) := by
  obtain ⟨hopen, hfin, hround⟩ := account_round hG hj hl
  obtain ⟨hw, hstop, hn, hp⟩ := hl
  refine { hG with
    clock := clocks_congr hG rfl rfl rfl
    logs := ?_
    got := ?_
    visits := fun hver => ?_
    round := fun _ _ => ?_ }
  · show s.recvLog ++ s.queue.take cfg.stride ++ s.queue.drop cfg.stride = s.sentLog
    rw [List.append_assoc, List.take_append_drop, hG.logs]
  · show (s.recvLog ++ s.queue.take cfg.stride).length = _
    rw [List.length_append, hG.got]
    exact (sum_update_range hj (by rw [hn])).symm
  · show ((s.recvLog ++ s.queue.take cfg.stride : List ℕ) : Multiset ℕ) = _
    rw [← Multiset.coe_add, hG.visits hver, ← hverify hver, add_assoc]
    congr 1
    have hshare := sum_update_range (f := fun k => (g.pending k : Multiset ℕ)) hj
      (show (pending : Multiset ℕ) = (g.pending j : Multiset ℕ) + (pending : Multiset ℕ) by
        simp [hp])
    rw [← hshare]
    apply Finset.sum_congr rfl
    intro k _
    by_cases hk : k = j
    · subst hk
      simp [Ghost.setGot]
    · simp [Ghost.setGot, hk]
  · refine { hround with
      ended := fun k hk hend => ?_
      ungot := fun k hk hidle hend => ?_
      untouched := fun h => ?_ }
    · have hkj := other_ended hfin hend
      obtain ⟨hslot, hpend, hdrained⟩ := hround.ended k hk hend
      refine ⟨?_, ?_, fun h => ?_⟩
      · simpa [Ghost.setGot, Shared.pop, hkj] using hslot
      · simpa [Ghost.setGot, hkj] using hpend
      · exact ⟨by simp [Shared.pop, (hdrained h).1], (hdrained h).2⟩
    · have hkj := other_idle hw hidle
      simpa [Ghost.setGot, hkj] using hround.ungot k hk hidle hend
    · have h' : s.action.receives = false := h
      simp [hrecv] at h'

/-- A receive changes the queue and the part of consumer `j`. -/
theorem pop_works : Works cfg (.consumer j) s g (s.pop cfg.stride) (g.setGot j n pending) := by
  refine ⟨rfl, rfl, rfl, rfl, rfl, fun h => ⟨by simp [Shared.pop, h.1], h.2⟩, fun u hu => ?_⟩
  cases u with
  | producer k => exact ⟨rfl, rfl⟩
  | consumer k =>
    have hk : k ≠ j := fun h => hu (h ▸ rfl)
    exact ⟨update_of_ne hk _ _, update_of_ne hk _ _, rfl⟩
  | coordinator => trivial

/-- The consumer goes on after a message. -/
theorem resume_local (h : Account s g j (count + received) [])
    (hrecv : s.action.receives = true) (hafter : after = true → s.done = true) :
    AtConsumer cfg j s g (resume cfg count received after) := by
  unfold resume
  split
  · exact ⟨h, hrecv, nofun⟩
  · exact ⟨h, hrecv, hafter⟩

/-- The consumer visits what it has received. -/
theorem visiting_local
    (h : Account s g j (count + received) pending) (hrecv : s.action.receives = true)
    (hafter : after = true → s.done = true) (hverify : cfg.verify = true) :
    AtConsumer cfg j s g (visiting cfg count received after pending) := by
  cases pending with
  | nil => exact resume_local h hrecv hafter
  | cons v rest => exact ⟨h, hrecv, hafter, hverify⟩

/-- A receive that finds something. -/
theorem recv_kept (hG : Inv cfg s g) (hj : j < cfg.consumers)
    (hl : AtConsumer cfg j s g (.recv count received after)) :
    Kept cfg (.consumer j) s g (s.pop cfg.stride)
      (if cfg.verify then visiting cfg count (received + (s.queue.take cfg.stride).length) after
        (s.queue.take cfg.stride)
      else resume cfg count (received + (s.queue.take cfg.stride).length) after) := by
  obtain ⟨hacc, hrecv, hafter⟩ := hl
  obtain ⟨hopen, _, _⟩ := account_round hG hj hacc
  have hacc' : ∀ pending, Account (s.pop cfg.stride)
      (g.setGot j (count + received + (s.queue.take cfg.stride).length) pending) j
      (count + (received + (s.queue.take cfg.stride).length)) pending := by
    intro pending
    exact ⟨hacc.1, hacc.2.1, by simp [Ghost.setGot, Nat.add_assoc], by simp [Ghost.setGot]⟩
  split
  · rename_i hverify
    exact ⟨_, pop_inv hG hj hacc hrecv fun _ => rfl,
      visiting_local (hacc' _) hrecv hafter hverify, works_rely hopen pop_works⟩
  · rename_i hverify
    exact ⟨_, pop_inv hG hj hacc hrecv fun h => absurd h hverify,
      resume_local (hacc' []) hrecv hafter, works_rely hopen pop_works⟩

/-- A pending value has been sent, is in range, and has not been visited. -/
theorem pending_fresh (hp : 1 ≤ cfg.producers) {v : ℕ} {rest : List ℕ} (hG : Inv cfg s g)
    (hj : j < cfg.consumers) (hverify : cfg.verify = true) (hpending : g.pending j = v :: rest) :
    v < cfg.seenLen ∧ v ∉ g.visited := by
  have hvisits := hG.visits hverify
  have hmem : v ∈ ∑ k ∈ Finset.range cfg.consumers, (g.pending k : Multiset ℕ) := by
    rw [Multiset.mem_sum]
    exact ⟨j, Finset.mem_range.mpr hj, by simp [hpending]⟩
  have hrecv : (s.recvLog : Multiset ℕ).Nodup := by
    rw [Multiset.coe_nodup]
    exact (hG.logs ▸ hG.nodup).of_append_left
  constructor
  · have hlog : v ∈ (s.recvLog : Multiset ℕ) := by
      rw [hvisits]
      exact Multiset.mem_add.mpr (.inr hmem)
    have hsent : v ∈ s.sentLog := by
      rw [← hG.logs]
      exact List.mem_append_left _ (by simpa using hlog)
    simpa [Config.seenLen, hverify] using sent_lt hG hp hsent
  · intro hvisited
    rw [hvisits, Multiset.nodup_add] at hrecv
    exact (Multiset.disjoint_left.mp hrecv.2.2) (by simpa using hvisited) hmem

/-- The visit of a value: `seen` is set where it was not. -/
theorem visit_kept {count received v : ℕ} (hG : Inv cfg s g) (hj : j < cfg.consumers)
    (hl : AtConsumer cfg j s g (.visit count received after (v :: pending))) :
    Kept cfg (.consumer j) s g (s.setSeen v true) (visiting cfg count received after pending) := by
  obtain ⟨hacc, hrecv, hafter, hverify⟩ := hl
  obtain ⟨hopen, hfin, hround⟩ := account_round hG hj hacc
  obtain ⟨hw, hstop, hn, hpend⟩ := hacc
  refine ⟨g.visit j v pending, { hG with
      clock := clocks_congr hG rfl rfl rfl
      visits := fun hver => ?_
      round := fun _ _ => ?_ }, ?_, works_rely hopen ?_⟩
  · have hshare := sum_update_range
      (f := fun k => (update g.pending j pending k : Multiset ℕ)) hj
      (show (g.pending j : Multiset ℕ) = _ + ({v} : Multiset ℕ) by
        rw [hpend, update_self, add_comm, Multiset.singleton_add, Multiset.cons_coe])
    have hback : ∀ k, update (fun k => (update g.pending j pending k :
        Multiset ℕ)) j (g.pending j : Multiset ℕ) k = (g.pending k : Multiset ℕ) := by
      intro k
      by_cases hk : k = j
      · subst hk
        simp
      · simp [hk]
    simp only [hback] at hshare
    show (s.recvLog : Multiset ℕ) = _
    rw [hG.visits hver, hshare]
    show _ = ((g.visited ++ [v] : List ℕ) : Multiset ℕ) + _
    rw [← Multiset.coe_add, Multiset.coe_singleton, add_assoc, add_comm ({v} : Multiset ℕ)]
    rfl
  · refine { hround with
      ended := fun k hk hend => ?_
      ungot := fun k hk hidle hend => ?_
      seen := fun w hw' => ?_ }
    · have hkj := other_ended hfin hend
      obtain ⟨hslot, hpending, hdrained⟩ := hround.ended k hk hend
      exact ⟨hslot, by simpa [Ghost.visit, hkj] using hpending, hdrained⟩
    · have hkj := other_idle hw hidle
      simpa [Ghost.visit, hkj] using hround.ungot k hk hidle hend
    · have hseen := hround.seen w hw'
      by_cases hwv : w = v
      · subst hwv
        simp [Shared.setSeen, Ghost.visit]
      · simpa [Shared.setSeen, Ghost.visit, hwv] using hseen
  · exact visiting_local ⟨hw, hstop, hn, by simp [Ghost.visit]⟩ hrecv hafter hverify
  · refine ⟨rfl, rfl, rfl, rfl, rfl, id, fun u hu => ?_⟩
    cases u with
    | producer k => exact ⟨rfl, rfl⟩
    | consumer k =>
      have hk : k ≠ j := fun h => hu (h ▸ rfl)
      exact ⟨rfl, update_of_ne hk _ _, rfl⟩
    | coordinator => trivial

/-- The store of a consumer's count. -/
theorem setConsumerSlot_kept {count : ℕ} (hG : Inv cfg s g) (hj : j < cfg.consumers)
    (hl : AtConsumer cfg j s g (.store count)) :
    Kept cfg (.consumer j) s g (s.setConsumerSlot j count) .endEnter := by
  obtain ⟨hacc, hdrained⟩ := hl
  obtain ⟨hopen, hfin, hround⟩ := account_round hG hj hacc
  refine ⟨g, { hG with clock := clocks_congr hG rfl rfl rfl, round := fun _ _ => ?_ },
    ⟨?_, hdrained⟩, works_rely hopen ⟨rfl, rfl, rfl, rfl, rfl, id, fun u hu => ?_⟩⟩
  · refine { hround with ended := fun k hk hend => ?_ }
    have hkj := other_ended hfin hend
    obtain ⟨hslot, hrest⟩ := hround.ended k hk hend
    exact ⟨(update_of_ne hkj _ _).trans hslot, hrest⟩
  · refine ⟨hacc.1, hacc.2.1, ?_, hacc.2.2.2⟩
    exact (update_self j count s.consumerSlot).trans hacc.2.2.1
  · cases u with
    | producer k => exact ⟨rfl, rfl⟩
    | consumer k =>
      have hk : k ≠ j := fun h => hu (h ▸ rfl)
      exact ⟨rfl, rfl, update_of_ne hk _ _⟩
    | coordinator => trivial

/-- A consumer leaves the round. -/
theorem leave_kept (hG : Inv cfg s g) (hj : j < cfg.consumers)
    (hl : AtConsumer cfg j s g .endEnter) :
    Kept cfg (.consumer j) s g (s.enter .finish (.consumer j)) .endWait := by
  have hworker : Worker cfg (.consumer j) := hj
  obtain ⟨⟨hw, hstop, hslot, hpending⟩, hdrained⟩ := hl
  obtain ⟨hG', hl'⟩ := enter_finish hG hworker hw nofun (by
    intro k hk _
    obtain rfl := Thread.consumer.inj hk
    exact ⟨hslot, hpending, hdrained⟩)
  exact ⟨_, hG', hl', idles_rely setWorking_idles⟩

/-- What every step of a consumer preserves. -/
theorem stepConsumer_kept (hp : 1 ≤ cfg.producers) {pc pc' : Pc} (hG : Inv cfg s g)
    (hj : j < cfg.consumers) (hl : AtConsumer cfg j s g pc)
    (hs : stepConsumer cfg j s pc = some (s', pc')) : Kept cfg (.consumer j) s g s' pc' := by
  apply Post.of_pair hs
  have hworker : Worker cfg (.consumer j) := hj
  cases pc with
  | spawn => exact same_kept hG hl
  | startEnter => exact enter_start_kept hG hworker hl id
  | startWait =>
    simp only [stepConsumer]
    split
    · rename_i hpass
      refine pass_start_kept hG hworker hl hpass fun hG' => ?_
      have hw : (g.setWorking (.consumer j) true).working (.consumer j) = true := by
        simp [Ghost.setWorking]
      refine ⟨hw, fun hstop => ?_⟩
      obtain ⟨hopen, hfin⟩ := busy_round hG' hworker hw
      exact (hG.round hopen hstop).ungot j hj hl.1 hfin
    · trivial
  | load =>
    obtain ⟨hw, hfresh⟩ := hl
    have hacc : s.action ≠ .stop → Account s g j 0 [] :=
      fun h => ⟨hw, h, (hfresh h).1.symm, (hfresh h).2⟩
    simp only [stepConsumer]
    split <;> rename_i haction
    · exact same_kept hG trivial
    · exact same_kept hG ⟨hacc (by simp [haction]), by simp [haction, Mode.receives],
        nofun⟩
    · exact same_kept hG ⟨hacc (by simp [haction]), by simp [haction, Mode.receives],
        nofun⟩
    · exact same_kept hG ⟨hacc (by simp [haction]),
        fun h => absurd h (by simp [haction, Mode.receives])⟩
    · exact same_kept hG ⟨hacc (by simp [haction]),
        fun h => absurd h (by simp [haction, Mode.receives])⟩
  | recv count received after =>
    simp only [stepConsumer]
    split
    · rename_i htake
      obtain ⟨hacc, hrecv, hafter⟩ := hl
      split <;> rename_i hzero
      · subst hzero
        refine same_kept hG ⟨hacc, hrecv, fun h => ?_⟩
        have hpos := stride_pos cfg
        have hq : s.queue = [] := (List.take_eq_nil_iff.mp htake).resolve_left (by omega)
        exact ⟨hafter h, hq, (account_round hG hj hacc).2.2.done (hafter h) hrecv⟩
      · exact same_kept hG ⟨hacc, hrecv, nofun⟩
    · exact recv_kept hG hj hl
  | visit count received after pending =>
    cases pending with
    | nil => trivial
    | cons v rest =>
      have hround := (account_round hG hj hl.1).2.2
      obtain ⟨hlt, hnew⟩ := pending_fresh hp hG hj hl.2.2.2 hl.1.2.2.2
      have hseen : s.seen v = false := by
        by_contra h
        exact hnew ((hround.seen v hlt).mp (by simpa using h))
      simp only [stepConsumer, if_pos hlt, hseen]
      exact visit_kept hG hj hl
  | mark => exact absurd hl id
  | poll count after =>
    obtain ⟨hacc, hrecv, hafter⟩ := hl
    simp only [stepConsumer]
    split
    · rename_i hdone
      split <;> rename_i hempty
      · exact same_kept hG ⟨hacc, fun _ => (hafter hempty).2⟩
      · exact same_kept hG ⟨hacc, hrecv, fun _ => hdone⟩
    · exact same_kept hG ⟨hacc, hrecv, fun h => (hafter h).1⟩
  | store count => exact setConsumerSlot_kept hG hj hl
  | endEnter => exact leave_kept hG hj hl
  | endWait =>
    simp only [stepConsumer]
    split
    · exact same_kept hG hl
    · trivial
  | _ => trivial

end Bench.Probe
