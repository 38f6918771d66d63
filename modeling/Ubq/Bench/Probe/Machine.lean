/-
# The rounds of the hardware probe

`Workers::new`, `Workers::round` and the drop of `Workers` in
`src/bench_harness/hardware.rs`: pinned producers and consumers that serve one
round after the other, and the coordinator that opens a round, waits for the
producers, publishes `done`, waits for everybody and checks the counts.  Every
access of a shared word is one step.

The queue is an atomic FIFO: `send_value`, `try_recv_value` and, for a queue with
batch operations of its own (`wholesale`), a whole batch are one step; otherwise a
batch is the default method of the trait.  A barrier is a rendezvous: it counts the
calls of `wait`, and a call returns when every participant has made as many
(`Bench.Barrier` shows this of `RoundBarrier`).  Clocks, pinning and the `ready`
barrier of the construction are left out.

`sentLog` and `recvLog` are history: the values sent since the last round that
opened with an empty queue, and the values received in the current round.
-/
import Ubq.Interleave
import Mathlib.Data.List.Basic

namespace Bench.Probe

open Function

/-- The action word. -/
inductive Mode
  | stop
  | handoff
  | fill
  | drain
  | idle
  deriving DecidableEq

/-- The producers send. -/
def Mode.sends : Mode → Bool
  | .handoff | .fill => true
  | _ => false

/-- The consumers receive. -/
def Mode.receives : Mode → Bool
  | .handoff | .drain => true
  | _ => false

/-- The parameters of the probe. -/
structure Config where
  producers : ℕ
  consumers : ℕ
  expected : ℕ
  batchSize : Option ℕ
  batch_pos : ∀ size, batchSize = some size → 1 ≤ size
  /-- The queue has batch operations of its own. -/
  wholesale : Bool
  verify : Bool

namespace Config

/-- The number of values that producer `index` sends. -/
def quota (cfg : Config) (index : ℕ) : ℕ :=
  cfg.expected / cfg.producers + if index < cfg.expected % cfg.producers then 1 else 0

/-- The first of them. -/
def base (cfg : Config) (index : ℕ) : ℕ :=
  index * (cfg.expected / cfg.producers) + min index (cfg.expected % cfg.producers)

/-- The length of the exact-once map. -/
def seenLen (cfg : Config) : ℕ := if cfg.verify then cfg.expected else 0

/-- The values that one call asks for, and those that one atomic operation moves. -/
def request (cfg : Config) : ℕ := cfg.batchSize.getD 1

/-- The values that one atomic operation moves at most. -/
def stride (cfg : Config) : ℕ := if cfg.wholesale then cfg.request else 1

end Config

/-! ## Threads and barriers -/

/-- The threads of the probe. -/
inductive Thread
  | producer (id : ℕ)
  | consumer (id : ℕ)
  | coordinator
  deriving DecidableEq

/-- The three barriers. -/
inductive Gate
  | start
  | producersFinished
  | finish
  deriving DecidableEq

/-- The threads that wait at a barrier. -/
def Config.participants (cfg : Config) : Gate → List Thread
  | .producersFinished => .coordinator :: (List.range cfg.producers).map .producer
  | .start | .finish => .coordinator ::
    ((List.range cfg.producers).map .producer ++ (List.range cfg.consumers).map .consumer)

/-- The words of the probe, and the values sent and received. -/
structure Shared where
  /-- The calls of `wait` on each barrier. -/
  waits : Gate → Thread → ℕ
  action : Mode
  done : Bool
  producerSlot : ℕ → ℕ
  consumerSlot : ℕ → ℕ
  seen : ℕ → Bool
  badValue : Bool
  queue : List ℕ
  sentLog : List ℕ
  recvLog : List ℕ

/-- The next access of a thread. -/
inductive Pc
  | spawn
  | startEnter
  | startWait
  | load
  | send (first : ℕ)
  | recv (count received : ℕ) (afterDoneEmpty : Bool)
  | visit (count received : ℕ) (afterDoneEmpty : Bool) (pending : List ℕ)
  | mark (count received : ℕ) (afterDoneEmpty : Bool) (pending : List ℕ)
  | poll (count : ℕ) (afterDoneEmpty : Bool)
  | store (count : ℕ)
  | finishedEnter
  | finishedWait
  | endEnter
  | endWait
  | exited
  | rest (last : Mode)
  | clear (mode : Mode) (k : ℕ)
  | setDone (mode : Mode)
  | setAction (mode : Mode)
  | openEnter (mode : Mode)
  | openWait (mode : Mode)
  | allSentEnter (mode : Mode)
  | allSentWait (mode : Mode)
  | publishDone (mode : Mode)
  | closeEnter (mode : Mode)
  | closeWait (mode : Mode)
  | sumSent (mode : Mode) (i sent : ℕ)
  | sumReceived (mode : Mode) (j sent received : ℕ)
  | missing (sent received k n : ℕ)
  | detail (sent received n : ℕ)
  | checkBad (mode : Mode)
  | checkSeen (mode : Mode) (k : ℕ)
  | failed (message : String)
  | stopEnter
  | stopWait

namespace Shared

/-- A thread calls `wait`. -/
def enter (s : Shared) (gate : Gate) (t : Thread) : Shared :=
  { s with waits := fun g u => if g = gate ∧ u = t then s.waits gate t + 1 else s.waits g u }

/-- The call of `t` may return: everybody has called as often. -/
def passable (cfg : Config) (s : Shared) (gate : Gate) (t : Thread) : Bool :=
  (cfg.participants gate).all fun u => s.waits gate t ≤ s.waits gate u

/-- Values are sent. -/
def push (s : Shared) (values : List ℕ) : Shared :=
  { s with queue := s.queue ++ values, sentLog := s.sentLog ++ values }

/-- At most `n` values are received. -/
def pop (s : Shared) (n : ℕ) : Shared :=
  { s with queue := s.queue.drop n, recvLog := s.recvLog ++ s.queue.take n }

/-- A producer reports. -/
def setProducerSlot (s : Shared) (i n : ℕ) : Shared :=
  { s with producerSlot := update s.producerSlot i n }

/-- A consumer reports. -/
def setConsumerSlot (s : Shared) (j n : ℕ) : Shared :=
  { s with consumerSlot := update s.consumerSlot j n }

/-- An entry of the exact-once map is stored. -/
def setSeen (s : Shared) (v : ℕ) (b : Bool) : Shared :=
  { s with seen := update s.seen v b }

/-- `bad_value` is stored. -/
def setBad (s : Shared) (b : Bool) : Shared := { s with badValue := b }

/-- `done` is stored. -/
def setDone (s : Shared) (b : Bool) : Shared := { s with done := b }

/-- The mode of the next round is stored. -/
def setAction (s : Shared) (mode : Mode) : Shared := { s with action := mode }

/-- The history of a round starts anew; a drain goes on with the values of its fill. -/
def beginLogs (s : Shared) (mode : Mode) : Shared :=
  { s with sentLog := if mode = .drain then s.sentLog else [], recvLog := [] }

end Shared

/-! ## The workers -/

/-- A producer: the quota of the round, its count, the two barriers. -/
def stepProducer (cfg : Config) (i : ℕ) (s : Shared) : Pc → Option (Shared × Pc)
  | .spawn => some (s, .startEnter)
  | .startEnter => some (s.enter .start (.producer i), .startWait)
  | .startWait => if s.passable cfg .start (.producer i) then some (s, .load) else none
  | .load =>
    match s.action with
    | .stop => some (s, .exited)
    | .handoff | .fill => some (s, .send 0)
    | .drain | .idle => some (s, .store 0)
  | .send first =>
    if first < cfg.quota i then
      let next := min (first + cfg.stride) (cfg.quota i)
      some (s.push (List.range' (cfg.base i + first) (next - first)), .send next)
    else some (s, .store (cfg.quota i))
  | .store count => some (s.setProducerSlot i count, .finishedEnter)
  | .finishedEnter => some (s.enter .producersFinished (.producer i), .finishedWait)
  | .finishedWait =>
    if s.passable cfg .producersFinished (.producer i) then some (s, .endEnter) else none
  | .endEnter => some (s.enter .finish (.producer i), .endWait)
  | .endWait => if s.passable cfg .finish (.producer i) then some (s, .startEnter) else none
  | _ => none

/-- The rest of a receive: the default batch goes on until it is complete. -/
def resume (cfg : Config) (count received : ℕ) (after : Bool) : Pc :=
  if cfg.stride = cfg.request ∨ received = cfg.request then .recv (count + received) 0 false
  else .recv count received after

/-- The next value to visit, or the rest of the receive. -/
def visiting (cfg : Config) (count received : ℕ) (after : Bool) : List ℕ → Pc
  | [] => resume cfg count received after
  | v :: pending => .visit count received after (v :: pending)

/-- A consumer: it leaves after an empty receive that follows an empty receive
followed by a load of `done` that found it set. -/
def stepConsumer (cfg : Config) (j : ℕ) (s : Shared) : Pc → Option (Shared × Pc)
  | .spawn => some (s, .startEnter)
  | .startEnter => some (s.enter .start (.consumer j), .startWait)
  | .startWait => if s.passable cfg .start (.consumer j) then some (s, .load) else none
  | .load =>
    match s.action with
    | .stop => some (s, .exited)
    | .handoff | .drain => some (s, .recv 0 0 false)
    | .fill | .idle => some (s, .store 0)
  | .recv count received after =>
    let values := s.queue.take cfg.stride
    if values = [] then
      if received = 0 then some (s, .poll count after)
      else some (s, .recv (count + received) 0 false)
    else
      some (s.pop cfg.stride,
        if cfg.verify then visiting cfg count (received + values.length) after values
        else resume cfg count (received + values.length) after)
  | .visit count received after (v :: pending) =>
    if v < cfg.seenLen then
      some (s.setSeen v true,
        if s.seen v then .mark count received after pending
        else visiting cfg count received after pending)
    else some (s, .mark count received after pending)
  | .mark count received after pending =>
    some (s.setBad true, visiting cfg count received after pending)
  | .poll count after =>
    if s.done then
      if after then some (s, .store count) else some (s, .recv count 0 true)
    else some (s, .recv count 0 after)
  | .store count => some (s.setConsumerSlot j count, .endEnter)
  | .endEnter => some (s.enter .finish (.consumer j), .endWait)
  | .endWait => if s.passable cfg .finish (.consumer j) then some (s, .startEnter) else none
  | _ => none

/-! ## The coordinator -/

/-- Rounds come as idle rounds, handoffs, and fills followed by a drain. -/
def follows (last mode : Mode) : Bool :=
  match mode with
  | .stop => true
  | .drain => last == .fill
  | _ => last != .fill

/-- The text of an integrity mismatch. -/
def summary (cfg : Config) (sent received : ℕ) : String :=
  "integrity mismatch: expected " ++ toString cfg.expected ++ " sent " ++ toString sent ++
    " consumed " ++ toString received

/-- `round(mode, producers)` from its first store to its return, and the drop. -/
def stepCoordinator (cfg : Config) (next : Mode) (s : Shared) : Pc → Option (Shared × Pc)
  | .spawn => some (s, .rest .idle)
  | .rest last =>
    if follows last next then
      if next = .stop then some (s.setAction .stop, .stopEnter)
      else some ((s.setBad false).beginLogs next, .clear next 0)
    else none
  | .clear mode k =>
    if k < cfg.seenLen then some (s.setSeen k false, .clear mode (k + 1))
    else some (s, .setDone mode)
  | .setDone mode => some (s.setDone (decide (mode = .drain)), .setAction mode)
  | .setAction mode => some (s.setAction mode, .openEnter mode)
  | .openEnter mode => some (s.enter .start .coordinator, .openWait mode)
  | .openWait mode =>
    if s.passable cfg .start .coordinator then some (s, .allSentEnter mode) else none
  | .allSentEnter mode => some (s.enter .producersFinished .coordinator, .allSentWait mode)
  | .allSentWait mode =>
    if s.passable cfg .producersFinished .coordinator then some (s, .publishDone mode) else none
  | .publishDone mode => some (s.setDone true, .closeEnter mode)
  | .closeEnter mode => some (s.enter .finish .coordinator, .closeWait mode)
  | .closeWait mode =>
    if s.passable cfg .finish .coordinator then some (s, .sumSent mode 0 0) else none
  | .sumSent mode i sent =>
    if i < cfg.producers then some (s, .sumSent mode (i + 1) (sent + s.producerSlot i))
    else some (s, .sumReceived mode 0 sent 0)
  | .sumReceived mode j sent received =>
    if j < cfg.consumers then
      some (s, .sumReceived mode (j + 1) sent (received + s.consumerSlot j))
    else if mode ≠ .idle ∧ ((mode ≠ .drain ∧ sent ≠ cfg.expected) ∨
        (mode ≠ .fill ∧ received ≠ cfg.expected)) then
      if cfg.seenLen = 0 then some (s, .failed (summary cfg sent received))
      else some (s, .missing sent received 0 0)
    else if mode ≠ .fill ∧ mode ≠ .idle ∧ cfg.seenLen ≠ 0 then some (s, .checkBad mode)
    else some (s, .rest mode)
  | .missing sent received k n =>
    if k < cfg.seenLen then
      some (s, .missing sent received (k + 1) (if s.seen k then n else n + 1))
    else some (s, .detail sent received n)
  | .detail sent received n =>
    some (s, .failed (summary cfg sent received ++ " (never-delivered values " ++ toString n ++
      "; duplicate or out-of-range observed " ++ toString s.badValue ++ ")"))
  | .checkBad mode =>
    if s.badValue then some (s, .failed
      "exact-once verification failed (duplicate, missing or out-of-range value)")
    else some (s, .checkSeen mode 0)
  | .checkSeen mode k =>
    if k < cfg.seenLen then
      if s.seen k then some (s, .checkSeen mode (k + 1))
      else some (s, .failed
        "exact-once verification failed (duplicate, missing or out-of-range value)")
    else some (s, .rest mode)
  | .stopEnter => some (s.enter .start .coordinator, .stopWait)
  | _ => none

/-- One step; the choice is the mode of the next round. -/
def step (cfg : Config) (t : Thread) (next : Mode) (s : Shared) (pc : Pc) : Option (Shared × Pc) :=
  match t with
  | .producer i => if i < cfg.producers then stepProducer cfg i s pc else none
  | .consumer j => if j < cfg.consumers then stepConsumer cfg j s pc else none
  | .coordinator => stepCoordinator cfg next s pc

/-- Before the threads are spawned. -/
def Shared.new : Shared where
  waits := fun _ _ => 0
  action := .stop
  done := false
  producerSlot := fun _ => 0
  consumerSlot := fun _ => 0
  seen := fun _ => false
  badValue := false
  queue := []
  sentLog := []
  recvLog := []

/-- The threads of the probe. -/
def system (cfg : Config) : Interleave.System Thread Shared Pc :=
  .ofStep Shared.new .spawn (step cfg)

end Bench.Probe
