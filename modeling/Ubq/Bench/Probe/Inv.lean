/-
# The proof outline of the probe rounds

A worker works in a round from the return of `start.wait` to its call of
`end.wait`, and the round is open from the coordinator's call of `start.wait` to
the return of its `end.wait`.  The barriers give the one fact everything rests on:
whoever works, works in the open round, and while no round is open nobody works
(`idle_of_closed`, `busy_round`).  So the coordinator may reset the shared words
between rounds, and a worker may trust what it has read of them.

The ghost value counts the rounds, names who works, and splits the account of the
round: what each producer has sent, what each consumer has got, and, for the
exact-once map, what has been visited and what is still to be visited.
-/
import Ubq.Bench.Probe.Machine
import Ubq.Tally
import Mathlib.Algebra.Order.Group.Multiset

namespace Bench.Probe

variable {cfg : Config} {t u : Thread} {i j : ℕ}

/-! ## The ranges of the producers -/

theorem base_zero (cfg : Config) : cfg.base 0 = 0 := by simp [Config.base]

theorem base_succ (cfg : Config) (i : ℕ) : cfg.base (i + 1) = cfg.base i + cfg.quota i := by
  simp only [Config.base, Config.quota, Nat.succ_mul]
  split <;> omega

theorem base_last (hp : 1 ≤ cfg.producers) : cfg.base cfg.producers = cfg.expected := by
  have hlt := Nat.mod_lt cfg.expected (show 0 < cfg.producers from hp)
  have hdiv := Nat.div_add_mod cfg.expected cfg.producers
  simp only [Config.base, Nat.min_eq_right hlt.le]
  exact hdiv

theorem base_mono (cfg : Config) {i k : ℕ} (hik : i < k) :
    cfg.base i + cfg.quota i ≤ cfg.base k := by
  induction k with
  | zero => exact absurd hik (by omega)
  | succ k ih =>
    rw [base_succ]
    rcases Nat.lt_succ_iff_lt_or_eq.mp hik with h | rfl
    · omega
    · exact le_rfl

/-- A value below the range of producer `n` lies in the range of exactly one producer
before it. -/
theorem lt_base_iff (cfg : Config) (n v : ℕ) :
    v < cfg.base n ↔ ∃ i, i < n ∧ cfg.base i ≤ v ∧ v < cfg.base i + cfg.quota i := by
  constructor
  · induction n with
    | zero =>
      rw [base_zero]
      exact fun h => absurd h (by omega)
    | succ n ih =>
      intro hv
      rw [base_succ] at hv
      by_cases h : v < cfg.base n
      · obtain ⟨i, hi, hrange⟩ := ih h
        exact ⟨i, by omega, hrange⟩
      · exact ⟨n, by omega, by omega, hv⟩
  · rintro ⟨i, hi, _, hv⟩
    have hmono := base_mono cfg hi
    omega

theorem range_unique {i k v : ℕ} (hi : cfg.base i ≤ v ∧ v < cfg.base i + cfg.quota i)
    (hk : cfg.base k ≤ v ∧ v < cfg.base k + cfg.quota k) : i = k := by
  rcases Nat.lt_trichotomy i k with h | h | h
  · have := base_mono cfg h
    omega
  · exact h
  · have := base_mono cfg h
    omega

theorem sum_quota (cfg : Config) (n : ℕ) : ∑ i ∈ Finset.range n, cfg.quota i = cfg.base n := by
  induction n with
  | zero => rw [base_zero]; rfl
  | succ n ih => rw [Finset.sum_range_succ, ih, base_succ]

/-! ## Ghost state -/

/-- What a round has done so far. -/
structure Ghost where
  /-- The rounds that have returned. -/
  rounds : ℕ
  working : Thread → Bool
  sent : ℕ → ℕ
  got : ℕ → ℕ
  visited : List ℕ
  pending : ℕ → List ℕ

variable {s s' : Shared} {g g' : Ghost}
variable (cfg s g)

/-- A round is open. -/
def Opened : Prop := s.waits .start .coordinator = g.rounds + 1

/-- Every producer has sent its quota. -/
def Complete : Prop := ∀ i, i < cfg.producers → g.sent i = cfg.quota i

/-- The threads of the probe other than the coordinator. -/
def Worker : Thread → Prop
  | .producer i => i < cfg.producers
  | .consumer j => j < cfg.consumers
  | .coordinator => False

/-- A worker is at most one round ahead of those that have returned, and works in
one that the coordinator has opened. -/
structure Clock (t : Thread) : Prop where
  closed : g.rounds ≤ s.waits .finish t
  ended : s.waits .finish t ≤ s.waits .start t
  started : s.waits .start t ≤ s.waits .finish t + 1
  opened : s.waits .finish t ≤ s.waits .start .coordinator
  working : g.working t = true → s.waits .start t = s.waits .finish t + 1 ∧
    s.waits .start t ≤ s.waits .start .coordinator

/-- What holds while a round is open. -/
structure Round : Prop where
  done : s.done = true → s.action.receives = true → Complete cfg g
  drain : s.action = .drain → Complete cfg g
  finished : ∀ i, i < cfg.producers → s.waits .producersFinished (.producer i) = g.rounds + 1 →
    s.producerSlot i = (if s.action.sends then cfg.quota i else 0) ∧
    (s.action.sends = true → g.sent i = cfg.quota i)
  ended : ∀ j, j < cfg.consumers → s.waits .finish (.consumer j) = g.rounds + 1 →
    s.consumerSlot j = g.got j ∧ g.pending j = [] ∧
    (s.action.receives = true → s.queue = [] ∧ Complete cfg g)
  unsent : ∀ i, i < cfg.producers → g.working (.producer i) = false →
    s.waits .finish (.producer i) = g.rounds → s.action.sends = true → g.sent i = 0
  ungot : ∀ j, j < cfg.consumers → g.working (.consumer j) = false →
    s.waits .finish (.consumer j) = g.rounds → g.got j = 0 ∧ g.pending j = []
  untouched : s.action.receives = false → s.recvLog = []
  quiet : s.action = .idle → s.sentLog = []
  seen : ∀ v, v < cfg.seenLen → (s.seen v = true ↔ v ∈ g.visited)
  good : s.badValue = false

/-- The invariant. -/
structure Inv : Prop where
  rounds_le : g.rounds ≤ s.waits .start .coordinator
  le_rounds : s.waits .start .coordinator ≤ g.rounds + 1
  clock : ∀ t, Worker cfg t → Clock s g t
  finished_ge : ∀ i, i < cfg.producers →
    s.waits .finish (.producer i) ≤ s.waits .producersFinished (.producer i)
  finished_le : ∀ i, i < cfg.producers →
    s.waits .producersFinished (.producer i) ≤ s.waits .finish (.producer i) + 1
  finished_idle : ∀ i, i < cfg.producers → g.working (.producer i) = false →
    s.waits .producersFinished (.producer i) = s.waits .finish (.producer i)
  logs : s.recvLog ++ s.queue = s.sentLog
  nodup : s.sentLog.Nodup
  mem : ∀ v, v ∈ s.sentLog ↔
    ∃ i, i < cfg.producers ∧ cfg.base i ≤ v ∧ v < cfg.base i + g.sent i
  sent_le : ∀ i, i < cfg.producers → g.sent i ≤ cfg.quota i
  got : s.recvLog.length = ∑ j ∈ Finset.range cfg.consumers, g.got j
  visits : cfg.verify = true → (s.recvLog : Multiset ℕ)
    = (g.visited : Multiset ℕ) + ∑ j ∈ Finset.range cfg.consumers, (g.pending j : Multiset ℕ)
  round : Opened s g → s.action ≠ .stop → Round cfg s g

variable {cfg s g}

/-- Whoever works, works in the open round. -/
theorem busy_round (hG : Inv cfg s g) (ht : Worker cfg t) (hw : g.working t = true) :
    Opened s g ∧ s.waits .finish t = g.rounds := by
  have hclock := hG.clock t ht
  have hwork := hclock.working hw
  have hclosed := hclock.closed
  have hle := hG.le_rounds
  exact ⟨by unfold Opened; omega, by omega⟩

/-- While no round is open nobody works. -/
theorem idle_of_closed (hG : Inv cfg s g) (hclosed : s.waits .start .coordinator = g.rounds)
    (ht : Worker cfg t) : g.working t = false := by
  by_contra h
  have hopen := (busy_round hG ht (by simpa using h)).1
  unfold Opened at hopen
  omega

theorem finish_of_closed (hG : Inv cfg s g) (hclosed : s.waits .start .coordinator = g.rounds)
    (ht : Worker cfg t) : s.waits .finish t = g.rounds := by
  have hclock := hG.clock t ht
  have h1 := hclock.closed
  have h2 := hclock.opened
  omega

theorem mem_complete (hG : Inv cfg s g) (hp : 1 ≤ cfg.producers) (hcomplete : Complete cfg g)
    (v : ℕ) : v ∈ s.sentLog ↔ v < cfg.expected := by
  rw [hG.mem, ← base_last hp, lt_base_iff]
  constructor
  · rintro ⟨i, hi, hv⟩
    exact ⟨i, hi, hcomplete i hi ▸ hv⟩
  · rintro ⟨i, hi, hv⟩
    exact ⟨i, hi, (hcomplete i hi).symm ▸ hv⟩

/-- When everything is sent, each value has been sent once. -/
theorem sentLog_perm (hG : Inv cfg s g) (hp : 1 ≤ cfg.producers) (hcomplete : Complete cfg g) :
    s.sentLog.Perm (List.range cfg.expected) := by
  rw [List.perm_ext_iff_of_nodup hG.nodup List.nodup_range]
  intro v
  rw [mem_complete hG hp hcomplete, List.mem_range]

theorem sent_lt (hG : Inv cfg s g) (hp : 1 ≤ cfg.producers) {v : ℕ} (hv : v ∈ s.sentLog) :
    v < cfg.expected := by
  obtain ⟨i, hi, hbase, hlt⟩ := (hG.mem v).mp hv
  rw [← base_last hp, lt_base_iff]
  have hle := hG.sent_le i hi
  exact ⟨i, hi, hbase, by omega⟩

/-! ## The assertions of the threads -/

variable (cfg s g)

/-- A worker outside a round. -/
def Waiting (t : Thread) (n : ℕ) : Prop :=
  g.working t = false ∧ s.waits .start t = s.waits .finish t + n

/-- A producer inside a round, having called `pdone.wait` or not. -/
def Busy (i n : ℕ) : Prop :=
  g.working (.producer i) = true ∧
    s.waits .producersFinished (.producer i) = s.waits .finish (.producer i) + n

/-- The assertion of a producer. -/
def AtProducer (i : ℕ) (s : Shared) (g : Ghost) : Pc → Prop
  | .spawn | .startEnter | .endWait => Waiting s g (.producer i) 0
  | .startWait => Waiting s g (.producer i) 1
  | .load => Busy s g i 0 ∧ (s.action.sends = true → g.sent i = 0)
  | .send first => Busy s g i 0 ∧ s.action.sends = true ∧ g.sent i = first ∧ first ≤ cfg.quota i
  | .store count => Busy s g i 0 ∧ s.action ≠ .stop ∧
    count = (if s.action.sends then cfg.quota i else 0) ∧
    (s.action.sends = true → g.sent i = cfg.quota i)
  | .finishedEnter => Busy s g i 0 ∧ s.action ≠ .stop ∧
    s.producerSlot i = (if s.action.sends then cfg.quota i else 0) ∧
    (s.action.sends = true → g.sent i = cfg.quota i)
  | .finishedWait | .endEnter => Busy s g i 1
  | _ => True

/-- The consumer has seen the queue drained. -/
def Drained : Prop := s.queue = [] ∧ Complete cfg g

/-- The account of consumer `j` in a round. -/
def Account (j n : ℕ) (pending : List ℕ) : Prop :=
  g.working (.consumer j) = true ∧ s.action ≠ .stop ∧ n = g.got j ∧ g.pending j = pending

/-- The assertion of a consumer. -/
def AtConsumer (j : ℕ) (s : Shared) (g : Ghost) : Pc → Prop
  | .spawn | .startEnter | .endWait => Waiting s g (.consumer j) 0
  | .startWait => Waiting s g (.consumer j) 1
  | .load => g.working (.consumer j) = true ∧
    (s.action ≠ .stop → g.got j = 0 ∧ g.pending j = [])
  | .recv count received after => Account s g j (count + received) [] ∧
    s.action.receives = true ∧ (after = true → s.done = true)
  | .visit count received after pending => Account s g j (count + received) pending ∧
    s.action.receives = true ∧ (after = true → s.done = true) ∧ cfg.verify = true
  | .mark _ _ _ _ => False
  | .poll count after => Account s g j count [] ∧
    s.action.receives = true ∧ (after = true → s.done = true ∧ Drained cfg s g)
  | .store count => Account s g j count [] ∧ (s.action.receives = true → Drained cfg s g)
  | .endEnter => Account s g j (s.consumerSlot j) [] ∧
    (s.action.receives = true → Drained cfg s g)
  | _ => True

/-- The calls of the coordinator: so many beyond the rounds that have returned. -/
def Calls (start producersFinished finish : ℕ) : Prop :=
  s.waits .start .coordinator = g.rounds + start ∧
  s.waits .producersFinished .coordinator = g.rounds + producersFinished ∧
  s.waits .finish .coordinator = g.rounds + finish

/-- What a round leaves behind. -/
def After : Mode → Prop
  | .handoff | .drain => Complete cfg g ∧ s.queue = []
  | .fill => Complete cfg g ∧ s.recvLog = []
  | .idle | .stop => s.queue = []

/-- The account of a round that is about to open. -/
structure Ready (mode : Mode) : Prop where
  running : mode ≠ .stop
  good : s.badValue = false
  recvLog : s.recvLog = []
  visited : g.visited = []
  got : ∀ j, g.got j = 0 ∧ g.pending j = []
  drain : mode = .drain → Complete cfg g
  other : mode ≠ .drain → s.sentLog = [] ∧ ∀ i, g.sent i = 0

/-- The account of a round that is over. -/
structure Over (mode : Mode) : Prop where
  after : After cfg s g mode
  running : mode ≠ .stop
  producers : ∀ i, i < cfg.producers →
    s.producerSlot i = if mode.sends then cfg.quota i else 0
  consumers : ∀ j, j < cfg.consumers → s.consumerSlot j = g.got j ∧ g.pending j = []
  seen : ∀ v, v < cfg.seenLen → (s.seen v = true ↔ v ∈ g.visited)
  good : s.badValue = false

/-- The first `n` entries of the exact-once map are clear. -/
def Cleared (n : ℕ) : Prop := ∀ v, v < n → s.seen v = false

/-- The assertion of the coordinator. -/
def AtCoordinator : Pc → Prop
  | .spawn => Calls s g 0 0 0 ∧ s.queue = []
  | .rest last => Calls s g 0 0 0 ∧ last ≠ .stop ∧ After cfg s g last
  | .clear mode k => Calls s g 0 0 0 ∧ Ready cfg s g mode ∧ k ≤ cfg.seenLen ∧ Cleared s k
  | .setDone mode => Calls s g 0 0 0 ∧ Ready cfg s g mode ∧ Cleared s cfg.seenLen
  | .setAction mode => Calls s g 0 0 0 ∧ Ready cfg s g mode ∧ Cleared s cfg.seenLen ∧
    s.done = decide (mode = .drain)
  | .openEnter mode => Calls s g 0 0 0 ∧ Ready cfg s g mode ∧ Cleared s cfg.seenLen ∧
    s.done = decide (mode = .drain) ∧ s.action = mode
  | .openWait mode | .allSentEnter mode => Calls s g 1 0 0 ∧ s.action = mode ∧ mode ≠ .stop
  | .allSentWait mode => Calls s g 1 1 0 ∧ s.action = mode ∧ mode ≠ .stop
  | .publishDone mode => Calls s g 1 1 0 ∧ s.action = mode ∧ mode ≠ .stop ∧
    ∀ i, i < cfg.producers → g.rounds + 1 ≤ s.waits .producersFinished (.producer i)
  | .closeEnter mode => Calls s g 1 1 0 ∧ s.action = mode ∧ mode ≠ .stop
  | .closeWait mode => Calls s g 1 1 1 ∧ s.action = mode ∧ mode ≠ .stop
  | .sumSent mode i sent => Calls s g 0 0 0 ∧ Over cfg s g mode ∧ i ≤ cfg.producers ∧
    sent = ∑ k ∈ Finset.range i, s.producerSlot k
  | .sumReceived mode j sent received => Calls s g 0 0 0 ∧ Over cfg s g mode ∧
    sent = ∑ k ∈ Finset.range cfg.producers, s.producerSlot k ∧ j ≤ cfg.consumers ∧
    received = ∑ k ∈ Finset.range j, s.consumerSlot k
  | .checkBad mode | .checkSeen mode _ => Calls s g 0 0 0 ∧ Over cfg s g mode ∧
    mode.receives = true
  | .missing _ _ _ _ | .detail _ _ _ | .failed _ => False
  | .stopEnter => Calls s g 0 0 0 ∧ s.action = .stop
  | _ => True

/-- The assertion of each kind of thread. -/
def Local (t : Thread) (s : Shared) (g : Ghost) (pc : Pc) : Prop :=
  match t with
  | .producer i => AtProducer cfg i s g pc
  | .consumer j => AtConsumer cfg j s g pc
  | .coordinator => AtCoordinator cfg s g pc

/-! ## What a thread may rely on -/

/-- The words of the round stay as they are for those who work in it. -/
structure Steady (s' : Shared) (g' : Ghost) : Prop where
  action : s'.action = s.action
  done : s.done = true → s'.done = true
  drained : Drained cfg s g → Drained cfg s' g'

/-- The data of the round do not change. -/
structure Frozen (s' : Shared) (g' : Ghost) : Prop where
  producerSlot : s'.producerSlot = s.producerSlot
  consumerSlot : s'.consumerSlot = s.consumerSlot
  seen : s'.seen = s.seen
  badValue : s'.badValue = s.badValue
  queue : s'.queue = s.queue
  sentLog : s'.sentLog = s.sentLog
  recvLog : s'.recvLog = s.recvLog
  sent : g'.sent = g.sent
  got : g'.got = g.got
  visited : g'.visited = g.visited
  pending : g'.pending = g.pending

/-- The data of a thread of its own. -/
def Own (s' : Shared) (g' : Ghost) : Thread → Prop
  | .producer i => g'.sent i = g.sent i ∧ s'.producerSlot i = s.producerSlot i
  | .consumer j => g'.got j = g.got j ∧ g'.pending j = g.pending j ∧
    s'.consumerSlot j = s.consumerSlot j
  | .coordinator => True

/-- A worker relies on its own calls, and on the round while it works in it. -/
structure WorkerRely (t : Thread) (s : Shared) (g : Ghost) (s' : Shared) (g' : Ghost) : Prop where
  waits : ∀ gate, s'.waits gate t = s.waits gate t
  working : g'.working t = g.working t
  steady : g.working t = true → Steady cfg s g s' g'
  own : g.working t = true → Own s g s' g' t

/-- The coordinator relies on its own calls and words, and on the data while no round
is open. -/
structure CoordinatorRely (s' : Shared) (g' : Ghost) : Prop where
  waits : ∀ gate, s'.waits gate .coordinator = s.waits gate .coordinator
  rounds : g'.rounds = g.rounds
  action : s'.action = s.action
  done : s'.done = s.done
  mono : ∀ gate t, s.waits gate t ≤ s'.waits gate t
  frozen : s.waits .start .coordinator = g.rounds → Frozen s g s' g'

/-- What each kind of thread relies on. -/
def Rely (t : Thread) (s : Shared) (g : Ghost) (s' : Shared) (g' : Ghost) : Prop :=
  match t with
  | .coordinator => CoordinatorRely s g s' g'
  | t => WorkerRely cfg t s g s' g'

end Bench.Probe
