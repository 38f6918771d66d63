/-
# The linked-shard channel as an interleaved machine

A step-by-step model of `src/kfifo/lubq.rs`.  Every shard is an atomic FIFO queue;
every access of `senders`, of a shard's `producer_active` and `next`, of the
registry's `head`, `tail` and lock, and of a receiver's cursor is one step.

Conventions.

* Shards are heap cells named by addresses and are never freed; `owned` is the
  arena of the registry, in the order of creation.
* `Sender`s are numbered in the order of their creation: `shardOf[h]` is the field
  `shard` of sender `h`, `live` lists the senders that have been created and not
  yet dropped.  A value in a queue carries, as history, the sender it came from.
* Rust's borrows are part of the state: `lent h` are the threads inside
  `clone(&self)` of sender `h`, and `user r` is the thread inside a `&mut self`
  call on receiver `r`.  `send` and `drop` need the sender for themselves.
* `try_recv` runs the code of `try_recv_batch_into` with size one on an empty
  vector: the two functions, and the two scans below them, differ in nothing else.
* `usizeMax` bounds the two counters that the source guards with `checked_add`.

The fields of `Shared` after `user` are history: written, never read by a branch.
-/
import Ubq.Interleave
import Ubq.Chain

namespace Lubq

open Function

/-- Threads. -/
abbrev Tid := ℕ

/-- The largest `usize`. -/
structure Config where
  usizeMax : ℕ

/-- `TryRecvError`. -/
inductive TryRecvError
  | empty
  | disconnected
  deriving DecidableEq

/-- The calls on senders `h` and receivers `r`. -/
inductive Op (T : Type*)
  | send (h : ℕ) (value : T)
  | sendBatch (h : ℕ) (values : List T)
  | cloneSender (h : ℕ)
  | dropSender (h : ℕ)
  | tryRecv (r : ℕ)
  | tryRecvBatchInto (r : ℕ) (values : List T) (size : ℕ)
  | cloneReceiver (r : ℕ)
  | isClosed (r : ℕ)

/-- What a call returns.  `batch n values` and `error e values` show the vector of
the caller afterwards. -/
inductive Res (T : Type*)
  | unit
  | sender (h : ℕ)
  | receiver (r : ℕ)
  | value (v : T)
  | batch (n : ℕ) (values : List T)
  | error (e : TryRecvError) (values : List T)
  | closed (b : Bool)
  | panicked

/-- `Shard`. -/
structure Shard (T : Type*) where
  id : ℕ
  producerActive : Bool
  next : Option Addr
  queue : List (ℕ × T)

/-- `Shard::new`. -/
def Shard.new {T : Type*} (id : ℕ) : Shard T := ⟨id, true, none, []⟩

/-- `producer_active` is stored. -/
def Shard.setActive {T : Type*} (b : Shard T) (active : Bool) : Shard T :=
  { b with producerActive := active }

/-- `next` is stored. -/
def Shard.setNext {T : Type*} (b : Shard T) (p : Option Addr) : Shard T := { b with next := p }

/-- The queue of a shard is an atomic FIFO queue. -/
def Shard.push {T : Type*} (b : Shard T) (h : ℕ) (values : List T) : Shard T :=
  { b with queue := b.queue ++ values.map (h, ·) }

/-- The first `n` values leave. -/
def Shard.pop {T : Type*} (b : Shard T) (n : ℕ) : Shard T := { b with queue := b.queue.drop n }

/-- The channel, its handles and the calls that have returned. -/
structure Shared (T : Type*) where
  heap : Addr → Shard T
  head : Option Addr
  tail : Option Addr
  locked : Bool
  owned : List Addr
  nextId : ℕ
  senders : ℕ
  shardOf : List Addr
  live : List ℕ
  lent : ℕ → List Tid
  receivers : ℕ
  cursor : ℕ → Option Addr
  user : ℕ → Option Tid
  /-- What was sent, by which sender. -/
  sends : List (ℕ × T)
  /-- What was popped, by which receiver and from which sender. -/
  recvs : List (ℕ × ℕ × T)
  /-- Finished calls with their results. -/
  trace : List (Tid × Op T × Res T)

section Memory

variable {T : Type*}

namespace Shared

/-- A shard changes. -/
def modShard (s : Shared T) (a : Addr) (f : Shard T → Shard T) : Shared T :=
  { s with heap := update s.heap a (f (s.heap a)) }

/-- The shard has been pushed to `owned`; no pointer leads to it yet. -/
def newShard (s : Shared T) (a : Addr) : Shared T :=
  { s with
    heap := update s.heap a (Shard.new s.nextId)
    owned := s.owned ++ [a]
    nextId := s.nextId + 1 }

/-- Sender `h` pushes to its shard `a`. -/
def push (s : Shared T) (a : Addr) (h : ℕ) (values : List T) : Shared T :=
  { s.modShard a (·.push h values) with
    sends := s.sends ++ values.map (h, ·) }

/-- Receiver `r` pops up to `n` values from shard `a`. -/
def pop (s : Shared T) (r : ℕ) (a : Addr) (n : ℕ) : Shared T :=
  { s.modShard a (·.pop n) with
    recvs := s.recvs ++ ((s.heap a).queue.take n).map (r, ·) }

/-- The cursor of receiver `r` is stored. -/
def setCursor (s : Shared T) (r : ℕ) (p : Option Addr) : Shared T :=
  { s with cursor := update s.cursor r p }

/-- A call of thread `t` borrows sender `h`. -/
def lend (s : Shared T) (h : ℕ) (t : Tid) : Shared T :=
  { s with lent := update s.lent h (t :: s.lent h) }

/-- Thread `t` gives handle `h` back. -/
def unlend (s : Shared T) (h : ℕ) (t : Tid) : Shared T :=
  { s with lent := update s.lent h ((s.lent h).erase t) }

/-- A call of thread `t`, or no call, has receiver `r`. -/
def setUser (s : Shared T) (r : ℕ) (u : Option Tid) : Shared T :=
  { s with user := update s.user r u }

/-- `Option::filter` on the id of a shard, against the captured boundary. -/
def within (s : Shared T) (boundaryId : ℕ) (p : Option Addr) : Option Addr :=
  p.filter fun a => (s.heap a).id ≤ boundaryId

end Shared

end Memory

/-! ## Program counters -/

/-- The arguments of a receiving call. -/
inductive Mode (T : Type*)
  | one
  | batch (values : List T) (size : ℕ)

/-- A receiving call: whether its second scan has begun, and the values it has
popped so far. -/
structure Recv (T : Type*) where
  r : ℕ
  mode : Mode T
  second : Bool
  received : List T

/-- The locals of a scan. -/
structure Scan (T : Type*) where
  recv : Recv T
  boundaryId : ℕ
  start : Addr
  startId : ℕ

/-- The next access of a thread. -/
inductive Pc (T : Type*)
  | idle
  | fault
  -- Sender::clone
  | cLock (h : ℕ)
  | cSpin (h : ℕ)
  | cScan (h i : ℕ)
  | cEmpty (h i : ℕ)
  | cCas (h i : ℕ)
  | cTail (h : ℕ) (a : Addr)
  | cLink (h : ℕ) (a : Addr) (tail : Option Addr)
  | cStore (h : ℕ) (a : Addr)
  | cUnlock (h : ℕ) (a : Addr)
  | cPanic (h : ℕ)
  | cAdd (h : ℕ) (a : Addr)
  | cAddCas (h : ℕ) (a : Addr) (count : ℕ)
  -- Sender::drop
  | dActive (h : ℕ) (a : Addr)
  | dCount (h : ℕ)
  -- Receiver; `wrapped` is the second loop of a scan
  | rTail (x : Recv T)
  | rTake (x : Recv T) (boundaryId : ℕ)
  | rHead (x : Recv T) (boundaryId : ℕ)
  | rNext (y : Scan T) (wrapped : Bool) (shard : Addr)
  | rPop (y : Scan T) (wrapped : Bool) (shard : Addr) (next : Option Addr)
  | rCursor (y : Scan T) (wrapped : Bool) (shard : Addr) (next : Option Addr)
  | rWrap (y : Scan T)
  | rRotate (y : Scan T)
  | rRotateHead (y : Scan T)
  | rSenders (x : Recv T)

/-- What the scheduler decides at a step. -/
inductive Act (T : Type*)
  | call (op : Op T)
  | run
  | spurious
  | alloc (a : Addr)

section Code

variable {T : Type*} (cfg : Config)

namespace Recv

variable (x : Recv T)

/-- The number of values asked for. -/
def size : ℕ :=
  match x.mode with
  | .one => 1
  | .batch _ size => size

/-- The vector of the caller as it was at the call. -/
def values : List T :=
  match x.mode with
  | .one => []
  | .batch values _ => values

/-- The call. -/
def op : Op T :=
  match x.mode with
  | .one => .tryRecv x.r
  | .batch values size => .tryRecvBatchInto x.r values size

/-- `Ok(value)`, or `Ok(received)`. -/
def ok : Res T :=
  match x.mode, x.received with
  | .one, v :: _ => .value v
  | _, _ => .batch x.received.length (x.values ++ x.received)

/-- `Err(e)`. -/
def err (e : TryRecvError) : Res T := .error e (x.values ++ x.received)

end Recv

/-- Return from a call. -/
def ret (s : Shared T) (t : Tid) (op : Op T) (res : Res T) : Shared T × Pc T :=
  ({ s with trace := s.trace ++ [(t, op, res)] }, .idle)

/-- Return from a receiving call. -/
def retRecv (s : Shared T) (t : Tid) (x : Recv T) (res : Res T) : Shared T × Pc T :=
  ret (s.setUser x.r none) t x.op res

/-- `Sender::send` and `Sender::send_batch`. -/
def send (s : Shared T) (t : Tid) (h : ℕ) (values : List T) (op : Op T) :
    Option (Shared T × Pc T) :=
  if h ∈ s.live ∧ s.lent h = [] then
    match s.shardOf[h]? with
    | some a => some (ret (s.push a h values) t op .unit)
    | none => none
  else none

/-- `Core::add_sender` with the count it has read. -/
def addSender (s : Shared T) (t : Tid) (h : ℕ) (a : Addr) (count : ℕ) : Shared T × Pc T :=
  if count < cfg.usizeMax then (s, .cAddCas h a count)
  else ret (s.unlend h t) t (.cloneSender h) .panicked

/-- `Sender::clone` returns the new sender. -/
def created (s : Shared T) (t : Tid) (h : ℕ) (a : Addr) (count : ℕ) : Shared T × Pc T :=
  ret { s.unlend h t with
    senders := count + 1
    shardOf := s.shardOf ++ [a]
    live := s.shardOf.length :: s.live } t (.cloneSender h) (.sender s.shardOf.length)

/-- The scan has returned to `try_recv`. -/
def scanned (s : Shared T) (t : Tid) (x : Recv T) : Shared T × Pc T :=
  match x.received, x.second with
  | [], false => (s, .rSenders x)
  | [], true => retRecv s t x (x.err .disconnected)
  | _ :: _, _ => retRecv s t x x.ok

/-- The end of a scan: empty scans rotate too. -/
def scanEnd (s : Shared T) (t : Tid) (y : Scan T) : Shared T × Pc T :=
  match y.recv.received with
  | [] => (s, .rRotate y)
  | _ :: _ => scanned s t y.recv

/-- The head of the first loop. -/
def scanFrom (s : Shared T) (y : Scan T) (current : Option Addr) : Pc T :=
  match current with
  | some a => if y.boundaryId < (s.heap a).id then .rWrap y else .rNext y false a
  | none => .rWrap y

/-- The head of the second loop. -/
def scanWrapped (s : Shared T) (t : Tid) (y : Scan T) (current : Option Addr) :
    Shared T × Pc T :=
  match current with
  | some a =>
    if y.startId ≤ (s.heap a).id ∨ y.boundaryId < (s.heap a).id then scanEnd s t y
    else (s, .rNext y true a)
  | none => scanEnd s t y

/-- The rest of a round: on to the next shard. -/
def scanNext (s : Shared T) (t : Tid) (y : Scan T) (wrapped : Bool) (shard : Addr)
    (next : Option Addr) : Shared T × Pc T :=
  match wrapped with
  | false =>
    if (s.heap shard).id = y.boundaryId then (s, .rWrap y)
    else (s, scanFrom s y (s.within y.boundaryId next))
  | true => scanWrapped s t y (s.within y.boundaryId next)

/-- One atomic step of thread `t`; `none` when the scheduler's choice does not
fit the program counter, or when the borrow checker rejects the call. -/
def step (t : Tid) (act : Act T) (s : Shared T) (pc : Pc T) : Option (Shared T × Pc T) :=
  match act, pc with
  | .call (.send h value), .idle => send s t h [value] (.send h value)
  | .call (.sendBatch h values), .idle => send s t h values (.sendBatch h values)
  | .call (.cloneSender h), .idle => if h ∈ s.live then some (s.lend h t, .cLock h) else none
  | .call (.dropSender h), .idle =>
    if h ∈ s.live ∧ s.lent h = [] then
      match s.shardOf[h]? with
      | some a => some ({ s with live := s.live.erase h }, .dActive h a)
      | none => none
    else none
  | .call (.tryRecv r), .idle =>
    if r < s.receivers ∧ s.user r = none then
      some (s.setUser r (some t), .rTail ⟨r, .one, false, []⟩)
    else none
  | .call (.tryRecvBatchInto r values size), .idle =>
    if r < s.receivers ∧ s.user r = none then
      if size = 0 then some (ret s t (.tryRecvBatchInto r values size) (.batch 0 values))
      else some (s.setUser r (some t), .rTail ⟨r, .batch values size, false, []⟩)
    else none
  | .call (.cloneReceiver r), .idle =>
    if r < s.receivers ∧ s.user r = none then
      some (ret { s.setCursor s.receivers none with receivers := s.receivers + 1 } t
        (.cloneReceiver r) (.receiver s.receivers))
    else none
  | .call (.isClosed r), .idle =>
    if r < s.receivers ∧ s.user r = none then
      some (ret s t (.isClosed r) (.closed (s.senders = 0)))
    else none
  -- SpinLock::lock
  | .run, .cLock h =>
      if s.locked then some (s, .cSpin h) else some ({ s with locked := true }, .cScan h 0)
  | .spurious, .cLock h => some (s, .cSpin h)
  | .run, .cSpin h => if s.locked then some (s, .cSpin h) else some (s, .cLock h)
  -- Registry::acquire_sender_shard, Shard::try_acquire_producer
  | .run, .cScan h i =>
    match s.owned[i]? with
    | some a =>
      if (s.heap a).producerActive then some (s, .cScan h (i + 1)) else some (s, .cEmpty h i)
    | none => if s.nextId < cfg.usizeMax then none else some (s, .cPanic h)
  | .run, .cEmpty h i =>
    match s.owned[i]? with
    | some a => if (s.heap a).queue.isEmpty then some (s, .cCas h i) else some (s, .cScan h (i + 1))
    | none => some (s, .fault)
  | .run, .cCas h i =>
    match s.owned[i]? with
    | some a =>
      if (s.heap a).producerActive then some (s, .cScan h (i + 1))
      else some (s.modShard a (·.setActive true), .cUnlock h a)
    | none => some (s, .fault)
  | .alloc a, .cScan h i =>
    if s.owned.length ≤ i ∧ s.nextId < cfg.usizeMax ∧ a ∉ s.owned then
      some (s.newShard a, .cTail h a)
    else none
  | .run, .cTail h a => some (s, .cLink h a s.tail)
  | .run, .cLink h a tail =>
    match tail with
    | some b => some (s.modShard b (·.setNext (some a)), .cStore h a)
    | none => some (s, .fault)
  | .run, .cStore h a => some ({ s with tail := some a }, .cUnlock h a)
  | .run, .cUnlock h a => some ({ s with locked := false }, .cAdd h a)
  | .run, .cPanic h =>
    some (ret ({ s with locked := false }.unlend h t) t (.cloneSender h) .panicked)
  -- Core::add_sender
  | .run, .cAdd h a => some (addSender cfg s t h a s.senders)
  | .run, .cAddCas h a count =>
    if s.senders = count then some (created s t h a count)
    else some (addSender cfg s t h a s.senders)
  | .spurious, .cAddCas h a _ => some (addSender cfg s t h a s.senders)
  -- Sender::drop
  | .run, .dActive h a =>
    some (s.modShard a (·.setActive false), .dCount h)
  | .run, .dCount h =>
    some (ret { s with senders := (s.senders + cfg.usizeMax) % (cfg.usizeMax + 1) } t
      (.dropSender h) .unit)
  -- Receiver::scan_once, Receiver::scan_batch_once
  | .run, .rTail x =>
    match s.tail with
    | some b => some (s, .rTake x (s.heap b).id)
    | none => some (scanned s t x)
  | .run, .rTake x boundaryId =>
    match s.within boundaryId (s.cursor x.r) with
    | some a =>
      some (s.setCursor x.r none, scanFrom s ⟨x, boundaryId, a, (s.heap a).id⟩ (some a))
    | none => some (s.setCursor x.r none, .rHead x boundaryId)
  | .run, .rHead x boundaryId =>
    match s.head with
    | some a => some (s, scanFrom s ⟨x, boundaryId, a, (s.heap a).id⟩ (some a))
    | none => some (scanned s t x)
  | .run, .rNext y wrapped shard => some (s, .rPop y wrapped shard (s.heap shard).next)
  | .run, .rPop y wrapped shard next =>
    let n := y.recv.size - y.recv.received.length
    match (s.heap shard).queue.take n with
    | [] => some (scanNext s t y wrapped shard next)
    | e :: es =>
      some (s.pop y.recv.r shard n, .rCursor
        { y with recv := { y.recv with received := y.recv.received ++ (e :: es).map Prod.snd } }
        wrapped shard next)
  | .run, .rCursor y wrapped shard next =>
    let s' := s.setCursor y.recv.r (next <|> s.head)
    if y.recv.received.length = y.recv.size then some (scanned s' t y.recv)
    else some (scanNext s' t y wrapped shard next)
  | .run, .rWrap y => some (scanWrapped s t y s.head)
  | .run, .rRotate y =>
    match (s.heap y.start).next with
    | some a => some (scanned (s.setCursor y.recv.r (some a)) t y.recv)
    | none => some (s, .rRotateHead y)
  | .run, .rRotateHead y => some (scanned (s.setCursor y.recv.r s.head) t y.recv)
  -- Receiver::try_recv, Receiver::try_recv_batch_into
  | .run, .rSenders x =>
    if s.senders = 0 then some (s, .rTail { x with second := true })
    else some (retRecv s t x (x.err .empty))
  | _, _ => none

end Code

/-- `channel_with`: one shard, sender 0 and receiver 0. -/
def Shared.new {T : Type*} : Shared T where
  heap := fun _ => Shard.new 0
  head := some 0
  tail := some 0
  locked := false
  owned := [0]
  nextId := 1
  senders := 1
  shardOf := [0]
  live := [0]
  lent := fun _ => []
  receivers := 1
  cursor := fun _ => none
  user := fun _ => none
  sends := []
  recvs := []
  trace := []

/-- The channel under any number of threads and any schedule. -/
def system (T : Type*) (cfg : Config) : Interleave.System Tid (Shared T) (Pc T) :=
  .ofStep Shared.new .idle (step cfg)

end Lubq
