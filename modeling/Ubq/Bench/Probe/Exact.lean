/-
# Probe rounds are exact

The steps of the coordinator, and what follows for every run: between rounds the
coordinator owns the shared words, the account of a round is settled when its
`end.wait` returns, and so no check of `round` fails.
-/
import Ubq.Bench.Probe.Workers

namespace Bench.Probe

open Interleave

variable {cfg : Config} {t u : Thread} {i j : ℕ} {s s' : Shared} {g g' : Ghost}
variable {mode : Mode}

/-! ## Between rounds -/

/-- A step of the coordinator while nobody works. -/
theorem quiet_rely (s' : Shared) (g' : Ghost) (hG : Inv cfg s g)
    (hclosed : s.waits .start .coordinator = g.rounds)
    (hwaits : ∀ gate u, u ≠ .coordinator → s'.waits gate u = s.waits gate u)
    (hworking : g'.working = g.working) :
    ∀ u, u ≠ .coordinator → Worker cfg u ∨ u = .coordinator → Rely cfg u s g s' g' := by
  intro u hu hw
  have hidle := idle_of_closed hG hclosed (hw.resolve_right hu)
  refine .of (fun _ => ⟨fun gate => hwaits gate u hu, by rw [hworking], fun h => ?_, fun h => ?_⟩)
    fun h => absurd h hu
  · simp [hidle] at h
  · simp [hidle] at h

/-- Between rounds none is open. -/
theorem not_opened {b c : ℕ} (h : Calls s g 0 b c) : ¬ Opened s g := by
  intro hopen
  unfold Opened at hopen
  have hstart := h.1
  omega

/-- The coordinator writes a word that the account of a closed round does not mention. -/
theorem quiet_inv (hG : Inv cfg s g) (hclosed : s.waits .start .coordinator = g.rounds)
    (hwaits : s'.waits = s.waits) (hqueue : s'.queue = s.queue) (hsent : s'.sentLog = s.sentLog)
    (hrecv : s'.recvLog = s.recvLog) : Inv cfg s' g := by
  have hclock : ∀ u, Worker cfg u → Clock s' g u := clocks_congr hG hwaits rfl rfl
  obtain ⟨hge, hle, _, hfin1, hfin2, hfin3, hlogs, hnodup, hmem, hsent_le, hgot, hvisits, _⟩ := hG
  have hnone : ¬ Opened s' g := by
    rw [Opened, hwaits, hclosed]
    omega
  refine ⟨?_, ?_, hclock, ?_, ?_, ?_, ?_, ?_, ?_, hsent_le, ?_, ?_, fun h => absurd h hnone⟩
  all_goals simpa only [hwaits, hqueue, hsent, hrecv]

/-- A round is ready by its logs and its account. -/
theorem Ready.congr (h : Ready cfg s g mode) (hbad : s'.badValue = s.badValue)
    (hsent : s'.sentLog = s.sentLog) (hrecv : s'.recvLog = s.recvLog) : Ready cfg s' g mode := by
  refine ⟨h.running, ?_, ?_, h.visited, h.got, h.drain, ?_⟩
  · rw [hbad]
    exact h.good
  · rw [hrecv]
    exact h.recvLog
  · rw [hsent]
    exact h.other

/-- The account of a round that begins. -/
def Ghost.begin (g : Ghost) (mode : Mode) : Ghost :=
  { g with
    sent := if mode = .drain then g.sent else fun _ => 0
    got := fun _ => 0
    visited := []
    pending := fun _ => [] }

/-- A round begins: its account starts afresh, except that a drain goes on with the
values of the fill. -/
theorem begin_kept {last mode : Mode} (hG : Inv cfg s g)
    (hl : AtCoordinator cfg s g (.rest last)) (hfollows : follows last mode = true)
    (hrun : mode ≠ .stop) :
    Kept cfg .coordinator s g ((s.setBad false).beginLogs mode) (.clear mode 0) := by
  obtain ⟨hcalls, hlast, hafter⟩ := hl
  have hclosed : s.waits .start .coordinator = g.rounds := hcalls.1
  have hgot : (0 : ℕ) = ∑ j ∈ Finset.range cfg.consumers, (g.begin mode).got j := by
    simp [Ghost.begin]
  have hvisits : ((([] : List ℕ)) : Multiset ℕ) = ((g.begin mode).visited : Multiset ℕ)
      + ∑ j ∈ Finset.range cfg.consumers, ((g.begin mode).pending j : Multiset ℕ) := by
    simp [Ghost.begin]
  have hvacuous : ¬ Opened ((s.setBad false).beginLogs mode) (g.begin mode) := not_opened hcalls
  have hclock : ∀ t, Worker cfg t → Clock ((s.setBad false).beginLogs mode) (g.begin mode) t :=
    clocks_congr hG rfl rfl rfl
  have hrely := quiet_rely ((s.setBad false).beginLogs mode) (g.begin mode) hG hclosed
    (fun _ _ _ => rfl) rfl
  by_cases hdrain : mode = .drain
  · subst hdrain
    obtain rfl : last = .fill := by simpa [follows] using hfollows
    obtain ⟨hcomplete, hrecv⟩ := hafter
    have hlogs : s.queue = s.sentLog := by
      have h := hG.logs
      rwa [hrecv] at h
    refine ⟨g.begin .drain, { hG with
      clock := hclock
      logs := ?_
      nodup := ?_
      mem := ?_
      sent_le := ?_
      got := hgot
      visits := fun _ => hvisits
      round := fun h => absurd h hvacuous }, ?_, hrely⟩
    · simpa [Shared.beginLogs, Shared.setBad] using hlogs
    · simpa [Shared.beginLogs, Shared.setBad] using hG.nodup
    · simpa [Shared.beginLogs, Shared.setBad, Ghost.begin] using hG.mem
    · simpa [Ghost.begin] using hG.sent_le
    · refine ⟨hcalls, ⟨by simp, rfl, rfl, rfl, fun _ => ⟨rfl, rfl⟩, fun _ => ?_,
        fun h => absurd rfl h⟩, Nat.zero_le _, fun v hv => absurd hv (by omega)⟩
      simpa [Complete, Ghost.begin] using hcomplete
  · have hqueue : s.queue = [] := by
      cases last <;> cases mode <;> simp_all [follows, After]
    refine ⟨g.begin mode, { hG with
      clock := hclock
      logs := ?_
      nodup := ?_
      mem := ?_
      sent_le := ?_
      got := hgot
      visits := fun _ => hvisits
      round := fun h => absurd h hvacuous }, ?_, hrely⟩
    · simp [Shared.beginLogs, Shared.setBad, hdrain, hqueue]
    · simp [Shared.beginLogs, hdrain]
    · simp only [Shared.beginLogs, Ghost.begin, if_neg hdrain, List.not_mem_nil, false_iff]
      rintro v ⟨i, _, h1, h2⟩
      omega
    · intro k _
      simp [Ghost.begin, hdrain]
    · refine ⟨hcalls, ⟨hrun, rfl, rfl, rfl, fun _ => ⟨rfl, rfl⟩, fun h => absurd h hdrain,
        fun _ => ⟨?_, fun i => ?_⟩⟩, Nat.zero_le _, fun v hv => absurd hv (by omega)⟩
      · simp [Shared.beginLogs, hdrain]
      · simp [Ghost.begin, hdrain]

/-- What the barriers know when the coordinator calls `start.wait`. -/
theorem enter_start_inv (hG : Inv cfg s g) (hclosed : s.waits .start .coordinator = g.rounds)
    (hround : s.action ≠ .stop → Round cfg s g) : Inv cfg (s.enter .start .coordinator) g := by
  have hstart : (s.enter .start .coordinator).waits .start .coordinator = g.rounds + 1 := by
    rw [enter_self, hclosed]
  refine { hG with
    rounds_le := by omega
    le_rounds := by omega
    clock := fun u hu => ?_
    round := fun _ hstop => ?_ }
  · have hclock := hG.clock u hu
    have hne : u ≠ .coordinator := (worker_ne hu).symm
    have hidle := idle_of_closed hG hclosed hu
    refine ⟨hclock.closed, ?_, ?_, hclock.opened.trans enter_le, fun h => ?_⟩
    · simp only [enter_other hne]
      exact hclock.ended
    · simp only [enter_other hne]
      exact hclock.started
    · simp [hidle] at h
  · have h := hround hstop
    exact { h with }

/-- A round that is ready may be opened. -/
theorem round_of_ready (hG : Inv cfg s g)
    (hclosed : s.waits .start .coordinator = g.rounds) (hready : Ready cfg s g mode)
    (hclear : Cleared s cfg.seenLen) (hdone : s.done = decide (mode = .drain))
    (haction : s.action = mode) : Round cfg s g := by
  have hproducer : ∀ i, i < cfg.producers →
      s.waits .producersFinished (.producer i) = g.rounds := by
    intro i hi
    have hw : Worker cfg (.producer i) := hi
    rw [hG.finished_idle i hi (idle_of_closed hG hclosed hw)]
    exact finish_of_closed hG hclosed hw
  have hconsumer : ∀ j, j < cfg.consumers → s.waits .finish (.consumer j) = g.rounds :=
    fun j hj => finish_of_closed hG hclosed (show Worker cfg (.consumer j) from hj)
  refine ⟨fun h _ => ?_, fun h => hready.drain (haction ▸ h), fun i hi h => ?_, fun j hj h => ?_,
    fun i _ _ _ hsends => ?_, fun j _ _ _ => hready.got j, fun _ => hready.recvLog, fun h => ?_,
    fun v hv => ?_, hready.good⟩
  · rw [hdone] at h
    exact hready.drain (of_decide_eq_true h)
  · rw [hproducer i hi] at h
    exact absurd h (by omega)
  · rw [hconsumer j hj] at h
    exact absurd h (by omega)
  · refine (hready.other ?_).2 i
    rintro rfl
    simp [haction, Mode.sends] at hsends
  · refine (hready.other ?_).1
    rintro rfl
    simp [haction] at h
  · simp [hclear v hv, hready.visited]

/-- The call of `start.wait` opens the round. -/
theorem open_kept (hG : Inv cfg s g) (hl : AtCoordinator cfg s g (.openEnter mode)) :
    Kept cfg .coordinator s g (s.enter .start .coordinator) (.openWait mode) := by
  obtain ⟨hcalls, hready, hclear, hdone, haction⟩ := hl
  have hclosed : s.waits .start .coordinator = g.rounds := hcalls.1
  refine ⟨g, enter_start_inv hG hclosed fun _ =>
    round_of_ready hG hclosed hready hclear hdone haction,
    ⟨⟨?_, hcalls.2⟩, haction, hready.running⟩,
    idles_rely (enter_idles _)⟩
  rw [enter_self, hclosed]

/-! ## While a round is open -/

/-- The coordinator's other calls. -/
theorem enter_inv {gate : Gate} (hgate : gate ≠ .start) (hG : Inv cfg s g) :
    Inv cfg (s.enter gate .coordinator) g := by
  have hsame : ∀ gate' u, u ≠ .coordinator →
      (s.enter gate .coordinator).waits gate' u = s.waits gate' u := fun _ _ h => enter_other h
  have hstart : ∀ u, (s.enter gate .coordinator).waits .start u = s.waits .start u :=
    fun u => enter_gate hgate.symm
  refine { hG with
    rounds_le := (hstart _).symm ▸ hG.rounds_le
    le_rounds := (hstart _).symm ▸ hG.le_rounds
    clock := fun u hu => ?_
    finished_ge := fun i hi => ?_
    finished_le := fun i hi => ?_
    finished_idle := fun i hi h => ?_
    round := fun hopen hstop => ?_ }
  · have hne : u ≠ .coordinator := (worker_ne hu).symm
    exact (hG.clock u hu).congr (hstart u) (hsame _ _ hne) (hstart _) rfl id
  · simp only [hsame _ _ (show Thread.producer i ≠ .coordinator by simp)]
    exact hG.finished_ge i hi
  · simp only [hsame _ _ (show Thread.producer i ≠ .coordinator by simp)]
    exact hG.finished_le i hi
  · simp only [hsame _ _ (show Thread.producer i ≠ .coordinator by simp)]
    exact hG.finished_idle i hi h
  · have h := hG.round ((hstart _).symm.trans hopen) hstop
    refine { h with
      finished := fun i hi => ?_
      ended := fun j hj => ?_
      unsent := fun i hi => ?_
      ungot := fun j hj => ?_ }
    · rw [hsame _ _ (by simp)]
      exact h.finished i hi
    · rw [hsame _ _ (by simp)]
      exact h.ended j hj
    · rw [hsame _ _ (by simp)]
      exact h.unsent i hi
    · rw [hsame _ _ (by simp)]
      exact h.ungot j hj

/-- Whoever passes a barrier passes after every other participant has come. -/
theorem passable_worker {gate : Gate} (h : s.passable cfg gate t = true)
    (hu : u ∈ cfg.participants gate) : s.waits gate t ≤ s.waits gate u := by
  unfold Shared.passable at h
  rw [List.all_eq_true] at h
  simpa using h u hu

/-- Only a drain receives what an earlier round has sent. -/
theorem sends_of_receives (hrecv : mode.receives = true) (hdrain : mode ≠ .drain) :
    mode.sends = true := by
  cases mode with
  | handoff => rfl
  | drain => exact absurd rfl hdrain
  | stop | fill | idle => simp [Mode.receives] at hrecv

/-- `done` is published when every producer has sent its quota. -/
theorem publish_kept (hG : Inv cfg s g)
    (hl : AtCoordinator cfg s g (.publishDone mode)) :
    Kept cfg .coordinator s g (s.setDone true) (.closeEnter mode) := by
  obtain ⟨hcalls, haction, hrun, hfin⟩ := hl
  refine ⟨g, { hG with clock := clocks_congr hG rfl rfl rfl, round := fun hopen hstop => ?_ },
    ⟨hcalls, haction, hrun⟩,
    fun u hu _ => .of (fun _ => ⟨fun _ => rfl, rfl, fun _ => ⟨rfl, fun _ => rfl, id⟩, fun _ => ?_⟩)
      fun h => absurd h hu⟩
  · have h := hG.round hopen hstop
    refine { h with done := fun _ hrecv i hi => ?_ }
    have hw : Worker cfg (.producer i) := hi
    have hle := hfin i hi
    have h1 := hG.finished_le i hi
    have h2 := hG.finished_ge i hi
    have h3 := (hG.clock _ hw).opened
    have hstart := hcalls.1
    by_cases hdrain : s.action = .drain
    · exact h.drain hdrain i hi
    · have hsends : s.action.sends = true := sends_of_receives hrecv hdrain
      have heq : s.waits .producersFinished (.producer i) = g.rounds + 1 := by
        by_cases hwork : g.working (.producer i) = true
        · have hb := (busy_round hG hw hwork).2
          omega
        · have hidle := hG.finished_idle i hi (by simpa using hwork)
          omega
      exact (h.finished i hi heq).2 hsends
  · cases u with
    | producer i => exact ⟨rfl, rfl⟩
    | consumer j => exact ⟨rfl, rfl, rfl⟩
    | coordinator => trivial

/-! ## The end of a round -/

/-- One more round has returned. -/
def Ghost.close (g : Ghost) : Ghost := { g with rounds := g.rounds + 1 }

/-- Everybody has called `end.wait`, so nobody works. -/
theorem all_ended (hG : Inv cfg s g) (hstart : s.waits .start .coordinator = g.rounds + 1)
    (hfinish : s.waits .finish .coordinator = g.rounds + 1)
    (hpass : s.passable cfg .finish .coordinator = true) (hw : Worker cfg t) :
    s.waits .finish t = g.rounds + 1 ∧ g.working t = false := by
  have hmem : t ∈ cfg.participants .finish := by
    cases t with
    | producer i => simpa [Config.participants, Worker] using hw
    | consumer j => simpa [Config.participants, Worker] using hw
    | coordinator => simp [Config.participants]
  have hle := passable_worker hpass hmem
  have hopened := (hG.clock t hw).opened
  refine ⟨by omega, ?_⟩
  by_contra h
  have hwork := (hG.clock t hw).working (by simpa using h)
  omega

/-- The account of the open round, once everybody has left it. -/
theorem over_of_round (hc : 1 ≤ cfg.consumers) (hG : Inv cfg s g)
    (hstart : s.waits .start .coordinator = g.rounds + 1)
    (hfinish : s.waits .finish .coordinator = g.rounds + 1)
    (hpass : s.passable cfg .finish .coordinator = true) (haction : s.action = mode)
    (hrun : mode ≠ .stop) : Over cfg s g.close mode := by
  subst haction
  have hround := hG.round hstart hrun
  have hproducer : ∀ i, i < cfg.producers →
      s.producerSlot i = (if s.action.sends then cfg.quota i else 0) ∧
      (s.action.sends = true → g.sent i = cfg.quota i) := by
    intro i hi
    have hw : Worker cfg (.producer i) := hi
    obtain ⟨hend, hidle⟩ := all_ended hG hstart hfinish hpass hw
    exact hround.finished i hi ((hG.finished_idle i hi hidle).trans hend)
  have hconsumer : ∀ j, j < cfg.consumers → s.consumerSlot j = g.got j ∧ g.pending j = [] ∧
      (s.action.receives = true → Drained cfg s g) := by
    intro j hj
    have hw : Worker cfg (.consumer j) := hj
    exact hround.ended j hj (all_ended hG hstart hfinish hpass hw).1
  refine ⟨?_, hrun, fun i hi => (hproducer i hi).1,
    fun j hj => ⟨(hconsumer j hj).1, (hconsumer j hj).2.1⟩, hround.seen, hround.good⟩
  have hdrained : s.action.receives = true → Complete cfg g ∧ s.queue = [] :=
    fun h => ⟨((hconsumer 0 hc).2.2 h).2, ((hconsumer 0 hc).2.2 h).1⟩
  cases ha : s.action with
  | handoff => exact hdrained (by simp [ha, Mode.receives])
  | drain => exact hdrained (by simp [ha, Mode.receives])
  | fill =>
    exact ⟨fun i hi => (hproducer i hi).2 (by simp [ha, Mode.sends]),
      hround.untouched (by simp [ha, Mode.receives])⟩
  | idle =>
    have hlogs := hG.logs
    rw [hround.quiet ha] at hlogs
    exact (List.append_eq_nil_iff.mp hlogs).2
  | stop => exact absurd ha hrun

/-- The coordinator returns from `end.wait`: the round is over. -/
theorem close_kept (hc : 1 ≤ cfg.consumers) (hG : Inv cfg s g)
    (hl : AtCoordinator cfg s g (.closeWait mode))
    (hpass : s.passable cfg .finish .coordinator = true) :
    Kept cfg .coordinator s g s (.sumSent mode 0 0) := by
  obtain ⟨⟨hstart, hfinished, hfinish⟩, haction, hrun⟩ := hl
  have hover := over_of_round hc hG hstart hfinish hpass haction hrun
  refine ⟨g.close, { hG with
      rounds_le := hstart.ge
      le_rounds := hstart.le.trans (Nat.le_succ _)
      clock := fun u hu => ?_
      round := fun h => ?_ },
    ⟨⟨hstart, hfinished, hfinish⟩, hover, Nat.zero_le _, rfl⟩, fun u hu hu' => ?_⟩
  · have hclock := hG.clock u hu
    exact { hclock with closed := (all_ended hG hstart hfinish hpass hu).1.ge }
  · unfold Opened Ghost.close at h
    dsimp only at h
    omega
  · have hidle := (all_ended hG hstart hfinish hpass (hu'.resolve_right hu)).2
    exact .of (fun _ => ⟨fun _ => rfl, rfl, fun h => absurd (hidle ▸ h) (by simp),
      fun h => absurd (hidle ▸ h) (by simp)⟩) fun h => absurd h hu

section

variable (hp : 1 ≤ cfg.producers)

include hp

/-- The producers' counts of a round that sends. -/
theorem sum_sent (hover : Over cfg s g mode)
    (hsends : mode.sends = true) :
    ∑ i ∈ Finset.range cfg.producers, s.producerSlot i = cfg.expected := by
  rw [← base_last hp, ← sum_quota]
  apply Finset.sum_congr rfl
  intro i hi
  rw [hover.producers i (Finset.mem_range.mp hi), if_pos hsends]

/-- What a round that receives leaves behind: each value received once. -/
theorem recvLog_perm (hG : Inv cfg s g)
    (hafter : After cfg s g mode) (hrecv : mode.receives = true) :
    s.recvLog.Perm (List.range cfg.expected) := by
  have hdrained : Complete cfg g ∧ s.queue = [] := by
    cases mode <;> simp_all [After, Mode.receives]
  have hlogs := hG.logs
  rw [hdrained.2, List.append_nil] at hlogs
  rw [hlogs]
  exact sentLog_perm hG hp hdrained.1

/-- The consumers' counts of a round that receives. -/
theorem sum_received (hG : Inv cfg s g)
    (hover : Over cfg s g mode) (hrecv : mode.receives = true) :
    ∑ j ∈ Finset.range cfg.consumers, s.consumerSlot j = cfg.expected := by
  calc ∑ j ∈ Finset.range cfg.consumers, s.consumerSlot j
      = ∑ j ∈ Finset.range cfg.consumers, g.got j := by
        apply Finset.sum_congr rfl
        intro j hj
        exact (hover.consumers j (Finset.mem_range.mp hj)).1
    _ = s.recvLog.length := hG.got.symm
    _ = cfg.expected := by
        rw [(recvLog_perm hp hG hover.after hrecv).length_eq, List.length_range]

/-- Every value has been visited. -/
theorem all_seen (hG : Inv cfg s g)
    (hover : Over cfg s g mode) (hrecv : mode.receives = true) {v : ℕ} (hv : v < cfg.seenLen) :
    s.seen v = true := by
  have hverify : cfg.verify = true := by
    by_contra h
    simp [Config.seenLen, h] at hv
  have hvisits := hG.visits hverify
  have hnone : ∑ j ∈ Finset.range cfg.consumers, (g.pending j : Multiset ℕ) = 0 := by
    apply Finset.sum_eq_zero
    intro j hj
    rw [(hover.consumers j (Finset.mem_range.mp hj)).2]
    rfl
  rw [hnone, add_zero, Multiset.coe_eq_coe] at hvisits
  rw [hover.seen v hv, ← hvisits.mem_iff, (recvLog_perm hp hG hover.after hrecv).mem_iff,
    List.mem_range]
  simpa [Config.seenLen, hverify] using hv

/-- The counts of a round that is over are the expected ones. -/
theorem counts_expected {sent received : ℕ}
    (hG : Inv cfg s g) (hover : Over cfg s g mode)
    (hsent : sent = ∑ k ∈ Finset.range cfg.producers, s.producerSlot k)
    (hreceived : received = ∑ k ∈ Finset.range cfg.consumers, s.consumerSlot k) :
    ¬ (mode ≠ .idle ∧ ((mode ≠ .drain ∧ sent ≠ cfg.expected) ∨
      (mode ≠ .fill ∧ received ≠ cfg.expected))) := by
  rintro ⟨hidle, ⟨hdrain, hne⟩ | ⟨hfill, hne⟩⟩
  · apply hne
    rw [hsent, sum_sent hp hover]
    have hrun := hover.running
    cases mode <;> simp_all [Mode.sends]
  · apply hne
    rw [hreceived, sum_received hp hG hover]
    have hrun := hover.running
    cases mode <;> simp_all [Mode.receives]

/-- The counts have been summed: the checks of `round` pass. -/
theorem sumReceived_kept {mode next : Mode} {j sent received : ℕ}
    {pc : Pc} (hG : Inv cfg s g) (hl : AtCoordinator cfg s g (.sumReceived mode j sent received))
    (hs : stepCoordinator cfg next s (.sumReceived mode j sent received) = some (s', pc)) :
    Kept cfg .coordinator s g s' pc := by
  apply Post.of_pair hs
  obtain ⟨hcalls, hover, hsent, hj, hreceived⟩ := hl
  simp only [stepCoordinator]
  split
  · rename_i hlt
    refine same_kept hG ⟨hcalls, hover, hsent, hlt, ?_⟩
    rw [Finset.sum_range_succ, hreceived]
  · obtain rfl : j = cfg.consumers := by omega
    rw [if_neg (counts_expected hp hG hover hsent hreceived)]
    split
    · rename_i hcheck
      refine same_kept hG ⟨hcalls, hover, ?_⟩
      obtain ⟨hfill, hidle, _⟩ := hcheck
      have hrun := hover.running
      cases mode with
      | handoff | drain => rfl
      | fill => exact absurd rfl hfill
      | idle => exact absurd rfl hidle
      | stop => exact absurd rfl hrun
    · exact same_kept hG ⟨hcalls, hover.running, hover.after⟩

/-- What every step of the coordinator preserves. -/
theorem stepCoordinator_kept (hc : 1 ≤ cfg.consumers) {next : Mode}
    {pc pc' : Pc} (hG : Inv cfg s g) (hl : AtCoordinator cfg s g pc)
    (hs : stepCoordinator cfg next s pc = some (s', pc')) :
    Kept cfg .coordinator s g s' pc' := by
  apply Post.of_pair hs
  cases pc with
  | spawn => exact same_kept hG ⟨hl.1, by simp, hl.2⟩
  | rest last =>
    simp only [stepCoordinator]
    split
    · rename_i hfollows
      split <;> rename_i hstop
      · exact ⟨g, quiet_inv hG hl.1.1 rfl rfl rfl rfl, ⟨hl.1, rfl⟩,
          quiet_rely _ _ hG hl.1.1 (fun _ _ _ => rfl) rfl⟩
      · exact begin_kept hG hl hfollows hstop
    · trivial
  | clear mode k =>
    obtain ⟨hcalls, hready, hk, hclear⟩ := hl
    simp only [stepCoordinator]
    split <;> rename_i hlt
    · refine ⟨g, quiet_inv hG hcalls.1 rfl rfl rfl rfl,
        ⟨hcalls, hready.congr rfl rfl rfl, hlt, fun v hv => ?_⟩,
        quiet_rely _ _ hG hcalls.1 (fun _ _ _ => rfl) rfl⟩
      by_cases hvk : v = k
      · subst hvk
        simp [Shared.setSeen]
      · simpa [Shared.setSeen, hvk] using hclear v (by omega)
    · obtain rfl : k = cfg.seenLen := by omega
      exact same_kept hG ⟨hcalls, hready, hclear⟩
  | setDone mode =>
    obtain ⟨hcalls, hready, hclear⟩ := hl
    exact ⟨g, quiet_inv hG hcalls.1 rfl rfl rfl rfl, ⟨hcalls, hready.congr rfl rfl rfl,
      hclear, rfl⟩, quiet_rely _ _ hG hcalls.1 (fun _ _ _ => rfl) rfl⟩
  | setAction mode =>
    obtain ⟨hcalls, hready, hclear, hdone⟩ := hl
    exact ⟨g, quiet_inv hG hcalls.1 rfl rfl rfl rfl, ⟨hcalls, hready.congr rfl rfl rfl,
      hclear, hdone, rfl⟩, quiet_rely _ _ hG hcalls.1 (fun _ _ _ => rfl) rfl⟩
  | openEnter mode => exact open_kept hG hl
  | openWait mode =>
    simp only [stepCoordinator]
    split
    · exact same_kept hG hl
    · trivial
  | allSentEnter mode =>
    obtain ⟨⟨hstart, hfinished, hfinish⟩, hrest⟩ := hl
    exact ⟨g, enter_inv (by simp) hG, ⟨⟨hstart, by rw [enter_self, hfinished], hfinish⟩, hrest⟩,
      idles_rely (enter_idles _)⟩
  | allSentWait mode =>
    simp only [stepCoordinator]
    split
    · rename_i hpass
      refine same_kept hG ⟨hl.1, hl.2.1, hl.2.2, fun i hi => ?_⟩
      have hle := passable_worker (u := .producer i) hpass (by simpa [Config.participants] using hi)
      exact hl.1.2.1 ▸ hle
    · trivial
  | publishDone mode => exact publish_kept hG hl
  | closeEnter mode =>
    obtain ⟨⟨hstart, hfinished, hfinish⟩, hrest⟩ := hl
    exact ⟨g, enter_inv (by simp) hG, ⟨⟨hstart, hfinished, by rw [enter_self, hfinish]⟩, hrest⟩,
      idles_rely (enter_idles _)⟩
  | closeWait mode =>
    simp only [stepCoordinator]
    split
    · rename_i hpass
      exact close_kept hc hG hl hpass
    · trivial
  | sumSent mode i sent =>
    obtain ⟨hcalls, hover, hi, hsum⟩ := hl
    simp only [stepCoordinator]
    split <;> rename_i hlt
    · refine same_kept hG ⟨hcalls, hover, hlt, ?_⟩
      rw [Finset.sum_range_succ, hsum]
    · obtain rfl : i = cfg.producers := by omega
      exact same_kept hG ⟨hcalls, hover, hsum, Nat.zero_le _, rfl⟩
  | sumReceived mode j sent received => exact Post.intro fun _ hs => sumReceived_kept hp hG hl hs
  | checkBad mode =>
    obtain ⟨hcalls, hover, hrecv⟩ := hl
    simp only [stepCoordinator, hover.good]
    exact same_kept hG ⟨hcalls, hover, hrecv⟩
  | checkSeen mode k =>
    obtain ⟨hcalls, hover, hrecv⟩ := hl
    simp only [stepCoordinator]
    split
    · rename_i hlt
      rw [if_pos (all_seen hp hG hover hrecv hlt)]
      exact same_kept hG ⟨hcalls, hover, hrecv⟩
    · exact same_kept hG ⟨hcalls, hover.running, hover.after⟩
  | missing | detail | failed => exact absurd hl id
  | stopEnter =>
    exact ⟨g, enter_start_inv hG hl.1.1 fun h => absurd hl.2 h, trivial,
      idles_rely (enter_idles _)⟩
  | _ => trivial

end

/-! ## Every run -/

/-- What every step of any thread preserves. -/
theorem step_kept (hp : 1 ≤ cfg.producers) (hc : 1 ≤ cfg.consumers) {next : Mode} {pc pc' : Pc}
    (hG : Inv cfg s g) (hl : Worker cfg t ∨ t = .coordinator → Local cfg t s g pc)
    (hs : step cfg t next s pc = some (s', pc')) : Kept cfg t s g s' pc' := by
  cases t with
  | producer i =>
    simp only [step] at hs
    split at hs
    · rename_i hi
      exact stepProducer_kept hG hi (hl (.inl hi)) hs
    · cases hs
  | consumer j =>
    simp only [step] at hs
    split at hs
    · rename_i hj
      exact stepConsumer_kept hp hG hj (hl (.inl hj)) hs
    · cases hs
  | coordinator => exact stepCoordinator_kept hp hc hG (hl (.inr rfl)) hs

/-- No round has been opened. -/
def Ghost.new : Ghost := ⟨0, fun _ => false, fun _ => 0, fun _ => 0, [], fun _ => []⟩

/-- The invariant before the first step, -/
theorem init_inv (cfg : Config) : Inv cfg Shared.new Ghost.new := by
  refine ⟨le_rfl, Nat.zero_le _, fun u _ => ?_, fun _ _ => le_rfl, fun _ _ => Nat.zero_le _,
    fun _ _ _ => rfl, rfl, List.nodup_nil, fun v => ?_, fun _ _ => Nat.zero_le _, ?_, fun _ => ?_,
    fun h => ?_⟩
  · exact ⟨le_rfl, le_rfl, Nat.zero_le _, le_rfl, fun h => absurd h (by simp [Ghost.new])⟩
  · simp only [Shared.new, Ghost.new, List.not_mem_nil, false_iff]
    rintro ⟨i, _, h1, h2⟩
    omega
  · simp [Shared.new, Ghost.new]
  · simp [Shared.new, Ghost.new]
  · simp [Opened, Shared.new, Ghost.new] at h

/-- and the assertions of the threads. -/
theorem init_local (cfg : Config) (t : Thread) : Local cfg t Shared.new Ghost.new .spawn := by
  cases t with
  | producer i => exact ⟨rfl, rfl⟩
  | consumer j => exact ⟨rfl, rfl⟩
  | coordinator => exact ⟨⟨rfl, rfl, rfl⟩, rfl⟩

/-- The invariant and the assertions hold along every run. -/
theorem outline (hp : 1 ≤ cfg.producers) (hc : 1 ≤ cfg.consumers)
    {c : Conf Thread Shared Pc} (hr : (system cfg).Reachable c) :
    ∃ g, Inv cfg c.sh g ∧
      ∀ t, Worker cfg t ∨ t = .coordinator → Local cfg t c.sh g (c.pc t) := by
  refine System.rely_guarantee (system cfg) (Inv cfg)
    (fun t s g pc => Worker cfg t ∨ t = .coordinator → Local cfg t s g pc)
    (fun u s g s' g' => Worker cfg u ∨ u = .coordinator → Rely cfg u s g s' g') ?_ ?_ ?_ hr
  · exact ⟨Ghost.new, init_inv cfg, fun t _ => init_local cfg t⟩
  · rintro t s g pc s' pc' hG hl ⟨next, hs⟩
    obtain ⟨g', hG', hl', hR⟩ := step_kept hp hc hG hl hs
    exact ⟨g', hG', fun _ => hl', hR⟩
  · intro u s g s' g' pc _ _ hR hl hu
    exact local_stable (hR hu) (hl hu)

/-- **Probe rounds are exact.**  The ranges of the producers partition the expected
values; when a round has returned, each value has been sent once by a handoff or a
fill and received once by a handoff or a drain, which leave the queue empty; and
no round fails. -/
theorem rounds_exact (cfg : Config) (hp : 1 ≤ cfg.producers) (hc : 1 ≤ cfg.consumers) :
    (∀ v, v < cfg.expected ↔ ∃ i, i < cfg.producers ∧
      cfg.base i ≤ v ∧ v < cfg.base i + cfg.quota i) ∧
    (∀ i k v, cfg.base i ≤ v ∧ v < cfg.base i + cfg.quota i →
      cfg.base k ≤ v ∧ v < cfg.base k + cfg.quota k → i = k) ∧
    ∀ c, (system cfg).Reachable c →
      (∀ message, c.pc .coordinator ≠ .failed message) ∧
      ∀ last, c.pc .coordinator = .rest last →
        (last.sends = true → c.sh.sentLog.Perm (List.range cfg.expected)) ∧
        (last.receives = true →
          c.sh.recvLog.Perm (List.range cfg.expected) ∧ c.sh.queue = []) ∧
        (last = .fill → c.sh.queue = c.sh.sentLog) ∧
        (last = .idle → c.sh.queue = []) := by
  refine ⟨fun v => ?_, fun i k v => range_unique, fun c hr => ?_⟩
  · rw [← lt_base_iff, base_last hp]
  · obtain ⟨g, hG, hl⟩ := outline hp hc hr
    have hcoord : AtCoordinator cfg c.sh g (c.pc .coordinator) := hl .coordinator (.inr rfl)
    refine ⟨fun message h => ?_, fun last h => ?_⟩
    · rw [h] at hcoord
      exact hcoord
    · rw [h] at hcoord
      obtain ⟨_, hrun, hafter⟩ := hcoord
      refine ⟨fun hsends => ?_, fun hrecv => ⟨recvLog_perm hp hG hafter hrecv, ?_⟩,
        fun hfill => ?_, fun hidle => ?_⟩
      · apply sentLog_perm hG hp
        cases last <;> simp_all [After, Mode.sends]
      · cases last <;> simp_all [After, Mode.receives]
      · subst hfill
        have hlogs := hG.logs
        rwa [hafter.2] at hlogs
      · subst hidle
        exact hafter

/-- A verified handoff of three values: who moves, and how often. -/
def handoffSchedule : List (Thread × ℕ) :=
  [(.coordinator, 9), (.producer 0, 2), (.producer 1, 2), (.consumer 0, 2), (.producer 0, 7),
    (.producer 1, 6), (.coordinator, 5), (.producer 0, 2), (.producer 1, 2), (.consumer 0, 14),
    (.coordinator, 11)]

/-- Two producers with quotas 2 and 1, one consumer, one verified handoff. -/
theorem rounds_exact_handoff :
    ∃ c, (system ⟨2, 1, 3, none, by simp, true, true⟩).Reachable c ∧
      c.pc .coordinator = .rest .handoff ∧ c.sh.recvLog.Perm (List.range 3) ∧
      c.sh.queue = [] := by
  obtain ⟨c, hruns, hpc⟩ : ∃ c, System.runs
      (step ⟨2, 1, 3, none, by simp, true, true⟩)
      (handoffSchedule.flatMap fun e => List.replicate e.2 (e.1, Mode.handoff))
      (system ⟨2, 1, 3, none, by simp, true, true⟩).start = some c ∧
      c.pc .coordinator = .rest .handoff := ⟨_, rfl, rfl⟩
  have hc := System.runs_reachable .start hruns
  obtain ⟨_, _, hexact⟩ := rounds_exact ⟨2, 1, 3, none, by simp, true, true⟩ (by decide) (by decide)
  exact ⟨c, hc, hpc, ((hexact c hc).2 .handoff hpc).2.1 rfl⟩

end Bench.Probe
