/-
# The Michael and Scott baseline

`MsQueue::push` and `MsQueue::try_pop` of
`src/bench_harness/baselines/ms_queue.rs`, each atomic access one step.  The queue
is a linked list with a sentinel; nodes are addresses, and an address may be
allocated again once its node has been freed.

Of the epochs only what they promise is modelled: a node retired by
`defer_destroy` remembers the threads that are pinned at that moment (`guards`),
and may be freed when all of them have been unpinned since.  A pointer that a
thread has loaded carries, as history, the life of the address at that moment; a
dereference of an address that has been freed since then ends in `fault`.  The
compare-exchanges compare addresses only.

`log` and `returned` are history: the events at the linearization points, and what
the operations have returned.
-/
import Ubq.Chain
import Ubq.Fifo
import Ubq.Interleave

namespace MsQueue

open Function Interleave

open Fifo (Event)

/-- A pointer as it was loaded. -/
structure Ptr where
  addr : Addr
  life : ℕ

/-- The queue, its nodes and the epochs of the threads. -/
structure Shared (α : Type*) where
  head : Addr
  tail : Addr
  next : Addr → Option Addr
  data : Addr → Option α
  /-- Whether the address is allocated, and for the how many-th time. -/
  live : Addr → Bool
  life : Addr → ℕ
  retired : Addr → Bool
  pinned : List ℕ
  /-- The threads that were pinned when the node was retired and still are. -/
  guards : Addr → List ℕ
  log : List (ℕ × Event α)
  returned : List (ℕ × Event α)

/-- The next access of a thread. -/
inductive Pc (α : Type*)
  | idle
  | pushPin (node : Addr) (v : α)
  | pushLoad (node : Addr) (v : α)
  | pushNext (node : Addr) (v : α) (tail : Ptr)
  | pushLink (node : Addr) (v : α) (tail : Ptr)
  | pushSwing (node : Addr) (v : α) (tail : Ptr)
  | pushHelp (node : Addr) (v : α) (tail : Ptr) (next : Addr)
  | pushed (v : α)
  | popLoad
  | popNext (head : Ptr)
  | popSwing (head next : Ptr)
  | popTake (head next : Ptr)
  | popRetire (head : Ptr) (value : Option α)
  | popped (value : Option α)
  | fault

/-- What the scheduler chooses: the next call of an idle thread (with the address
that the allocator returns), a node to free, or nothing. -/
inductive Act (α : Type*)
  | push (v : α) (a : Addr)
  | pop
  | free (a : Addr)
  | step

namespace Shared

variable {α : Type*}

/-- A node is allocated. -/
def alloc (s : Shared α) (a : Addr) (v : α) : Shared α :=
  { s with
    live := update s.live a true
    life := update s.life a (s.life a + 1)
    data := update s.data a (some v)
    next := update s.next a none }

/-- The thread is pinned. -/
def pin (s : Shared α) (t : ℕ) : Shared α := { s with pinned := t :: s.pinned }

/-- The guard is dropped: `t` no longer holds up any node. -/
def unpin (s : Shared α) (t : ℕ) : Shared α :=
  { s with
    pinned := s.pinned.filter (· ≠ t)
    guards := fun a => (s.guards a).filter (· ≠ t) }

/-- A pointer to the node in its present life. -/
def ptr (s : Shared α) (a : Addr) : Ptr := ⟨a, s.life a⟩

/-- The node behind `p` has not been freed since `p` was loaded. -/
def valid (s : Shared α) (p : Ptr) : Bool := s.live p.addr && s.life p.addr == p.life

/-- A node is linked behind `a`. -/
def link (s : Shared α) (a n : Addr) : Shared α :=
  { s with next := update s.next a (some n) }

/-- The tail is stored. -/
def setTail (s : Shared α) (a : Addr) : Shared α := { s with tail := a }

/-- The head is stored. -/
def setHead (s : Shared α) (a : Addr) : Shared α := { s with head := a }

/-- The value leaves the node. -/
def take (s : Shared α) (a : Addr) : Shared α :=
  { s with data := update s.data a none }

/-- `defer_destroy`. -/
def retire (s : Shared α) (a : Addr) : Shared α :=
  { s with
    retired := update s.retired a true
    guards := update s.guards a s.pinned }

/-- A node is freed. -/
def free (s : Shared α) (a : Addr) : Shared α :=
  { s with
    live := update s.live a false
    retired := update s.retired a false }

/-- The call takes effect. -/
def logs (s : Shared α) (t : ℕ) (e : Event α) : Shared α := { s with log := s.log ++ [(t, e)] }

/-- The call returns. -/
def returns (s : Shared α) (t : ℕ) (e : Event α) : Shared α :=
  { s with returned := s.returned ++ [(t, e)] }

end Shared

variable {α : Type*}

/-- A dereference. -/
def deref (s : Shared α) (p : Ptr) (r : Option (Shared α × Pc α)) : Option (Shared α × Pc α) :=
  if s.valid p then r else some (s, .fault)

/-- One step of a thread. -/
def step (t : ℕ) (act : Act α) (s : Shared α) : Pc α → Option (Shared α × Pc α)
  | .idle =>
    match act with
    | .push v a => if s.live a then none else some (s.alloc a v, .pushPin a v)
    | .pop => some (s.pin t, .popLoad)
    | .free a => if s.retired a && (s.guards a).isEmpty then some (s.free a, .idle) else none
    | .step => none
  | .pushPin node v => some (s.pin t, .pushLoad node v)
  | .pushLoad node v => some (s, .pushNext node v (s.ptr s.tail))
  | .pushNext node v tail =>
    deref s tail <|
      match s.next tail.addr with
      | none => some (s, .pushLink node v tail)
      | some n => some (s, .pushHelp node v tail n)
  | .pushLink node v tail =>
    deref s tail <|
      if s.next tail.addr = none then
        some ((s.link tail.addr node).logs t (.push v), .pushSwing node v tail)
      else some (s, .pushLoad node v)
  | .pushSwing node v tail =>
    some (if s.tail = tail.addr then s.setTail node else s, .pushed v)
  | .pushHelp node v tail n =>
    some (if s.tail = tail.addr then s.setTail n else s, .pushLoad node v)
  | .pushed v => some ((s.unpin t).returns t (.push v), .idle)
  | .popLoad => some (s, .popNext (s.ptr s.head))
  | .popNext head =>
    deref s head <|
      match s.next head.addr with
      | none => some (s.logs t (.pop none), .popped none)
      | some n => some (s, .popSwing head (s.ptr n))
  | .popSwing head next =>
    if s.head = head.addr then
      some ((s.setHead next.addr).logs t (.pop (s.data next.addr)), .popTake head next)
    else some (s, .popLoad)
  | .popTake head next => deref s next <|
      some (s.take next.addr, .popRetire head (s.data next.addr))
  | .popRetire head value => some (s.retire head.addr, .popped value)
  | .popped value => some ((s.unpin t).returns t (.pop value), .idle)
  | .fault => none

/-- `MsQueue::new`: the sentinel at address 0. -/
def Shared.new : Shared α where
  head := 0
  tail := 0
  next := fun _ => none
  data := fun _ => none
  live := fun a => a == 0
  life := fun _ => 0
  retired := fun _ => false
  pinned := []
  guards := fun _ => []
  log := []
  returned := []

/-- The threads that share the queue. -/
def system (α : Type*) : System ℕ (Shared α) (Pc α) := .ofStep Shared.new .idle step

/-! ## A lagging tail -/

/-- One pusher has linked its node and not yet swung the tail; a popper moves the head
past the old node and retires it; a second pusher is pinned after that and loads
the tail, which still points at the retired node.  When the first pusher has swung
the tail and returned, the node is freed, and the second pusher dereferences it. -/
def laggingSchedule : List (ℕ × Act ℕ) :=
  [(0, .push 10 1), (0, .step), (0, .step), (0, .step), (0, .step),
    (1, .pop), (1, .step), (1, .step), (1, .step), (1, .step), (1, .step), (1, .step),
    (2, .push 20 2), (2, .step), (2, .step),
    (0, .step), (0, .step), (3, .free 0), (2, .step)]

theorem tail_dangles : ∃ c, (system ℕ).Reachable c ∧ c.pc 2 = .fault := by
  obtain ⟨c, hruns, hpc⟩ : ∃ c, System.runs step laggingSchedule (system ℕ).start
      = some c ∧ c.pc 2 = .fault := ⟨_, rfl, rfl⟩
  exact ⟨c, System.runs_reachable .start hruns, hpc⟩

end MsQueue
