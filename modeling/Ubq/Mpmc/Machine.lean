/-
# The MPMC queue as an interleaved machine

A step-by-step model of `src/queue.rs`, with the parts of `src/block.rs`,
`src/head.rs` and `src/slot.rs` it uses.  Every atomic access of `phead`,
`chead`, `pool`, `next`, `consumed`, a slot's state and a run's `remaining` is
one step.

Conventions.

* `usize` is `ℕ`; the sums of `pop_batch` are made by `add`, the sum in `ℕ` or the
  one of the word.  A packed head word is the `Head` it encodes; `Head.word` is
  the round trip through the codec, which loses `has_next` when the codec has no
  bit for it (`hint = false`).
* A pointer is an `Option Addr`; dereferencing null, or moving a value out of a
  slot that was never initialised, ends in `Pc.fault`.
* A `BlockChain` is the list of its blocks; its `size` is `bl` times its length.
  The `next` links inside the blocks are written as the source writes them.
* A head that was loaded is compared as it was loaded; a head that is stored
  goes through `Head.word`.  `compare_exchange_weak` may fail without reason:
  `Act.spurious`.
* Memory comes from the scheduler: `Act.alloc as` hands out any addresses that
  are not allocated, freed ones included; a multi-page run is a list of them.
* An item is an `Option T`: the iterators of callers yield values, the
  `FalseIterator` of `pop_batch` yields none.
* A `UBQIter` is run to its end as its `Drop` does; `keep` is the number of
  values the caller takes before dropping it.

The fields of `Shared` after `arena` are history: they are written, never read by
a branch; likewise `Slot.read`, `Iter.base` and the lists of the arena.  Position
`token * bl + index` is slot `index` of the block `token`.
-/
import Ubq.Interleave
import Ubq.Chain
import Ubq.Log

namespace Mpmc

open Function

/-- The block length, and whether a head word has a bit for `has_next`. -/
structure Config where
  bl : ℕ
  hint : Bool
  bl_pos : 0 < bl

/-- Threads. -/
abbrev Tid := ℕ

/-! ## Shared memory -/

/-- `Head`, unpacked. -/
structure Head where
  block : Option Addr
  index : ℕ
  hasNext : Bool
  deriving DecidableEq

/-- `Head::ZERO`. -/
def Head.zero : Head := ⟨none, 0, false⟩

/-- `Head::from_ptr`. -/
def Head.fromPtr (block : Option Addr) : Head := { Head.zero with block := block }

/-- `Head::to_usize` and back. -/
def Head.word (cfg : Config) (h : Head) : Head := { h with hasNext := h.hasNext && cfg.hint }

/-- The state byte of a slot. -/
inductive SlotState
  | zero
  | written
  | skip
  deriving DecidableEq

/-- A slot, and whether it has been read. -/
structure Slot (T : Type*) where
  state : SlotState
  value : Option T
  /-- The value has been moved out. -/
  read : Bool

/-- A block. -/
structure Block (T : Type*) where
  next : Option Addr
  run : Option ℕ
  consumed : ℕ
  slots : ℕ → Slot T

/-- `BlockRun`: the pages of one allocation and how many of them are in use. -/
structure BlockRun where
  members : List Addr
  remaining : ℕ

/-- The allocator: which addresses it has handed out, and the runs. -/
structure Arena where
  allocated : Addr → Bool
  runs : ℕ → BlockRun
  runCount : ℕ
  /-- Blocks initialised, and blocks freed, in order. -/
  made : List Addr
  gone : List Addr
  /-- Runs whose memory was returned. -/
  released : List ℕ

/-- The public operations: `push` is a batch of one, `pop` is `popBatch 1 1`. -/
inductive Op (T : Type*)
  | pushBatch (items : List T)
  | popBatch (size keep : ℕ)
  | isEmpty

/-- Results: nothing, the number of reserved slots with the values handed to the
caller, or the answer of `is_empty`. -/
inductive Res (T : Type*)
  | pushed
  | popped (reserved : ℕ) (values : List T)
  | answer (b : Bool)

/-- The words of the queue, its memory and its history. -/
structure Shared (T : Type*) where
  phead : Head
  chead : Head
  pool : Option Addr
  heap : Addr → Block T
  arena : Arena
  /-- Values dropped with their block. -/
  dropped : List T
  /-- The blocks in the order of their tokens. -/
  linked : List Addr
  /-- Won reservations, won claims, and the slots read by iterators. -/
  log : Log Tid (Option T)
  /-- The token of `chead.block` when the thread last loaded `chead`. -/
  seen : Tid → ℕ
  /-- Finished calls with their results. -/
  trace : List (Tid × Op T × Res T)

section Memory

variable {T : Type*}

/-- `Slot::new`. -/
def Slot.new : Slot T := ⟨.zero, none, false⟩

/-- `Slot::reset`. -/
def Slot.reset (x : Slot T) : Slot T := { x with state := .zero }

/-- `Slot::write`, or `Slot::skip` for a missing item. -/
def Slot.put (x : Slot T) : Option T → Slot T
  | some v => ⟨.written, some v, false⟩
  | none => { x with state := .skip }

/-- A block as `Block::initialize` and `initialize_slots` write it. -/
def Block.new (next : Option Addr) (run : Option ℕ) : Block T := ⟨next, run, 0, fun _ => Slot.new⟩

/-- `Block::reset`. -/
def Block.reset (b : Block T) : Block T :=
  { b with next := none, consumed := 0, slots := fun i => (b.slots i).reset }

/-- The link is stored. -/
def Block.setNext (b : Block T) (p : Option Addr) : Block T := { b with next := p }

/-- A slot is stored. -/
def Block.setSlot (b : Block T) (i : ℕ) (x : Slot T) : Block T :=
  { b with slots := update b.slots i x }

/-- `consumed.fetch_add(n)`. -/
def Block.addConsumed (b : Block T) (n : ℕ) : Block T := { b with consumed := b.consumed + n }

/-- The values `Block::free` drops: those of the written slots from `consumed` on. -/
def Block.drops (cfg : Config) (b : Block T) : List T :=
  (List.range' b.consumed (cfg.bl - b.consumed)).filterMap fun i =>
    if (b.slots i).state = .written then (b.slots i).value else none

namespace Arena

/-- Hand out the pages `as`. -/
def allocate (m : Arena) (as : List Addr) : Arena :=
  { m with
    allocated := fun b => if b ∈ as then true else m.allocated b
    made := m.made ++ as }

/-- The descriptor of a new run. -/
def newRun (m : Arena) (as : List Addr) : Arena :=
  { m with
    runs := update m.runs m.runCount ⟨as, as.length⟩
    runCount := m.runCount + 1 }

/-- A standalone page goes back at once. -/
def deallocate (m : Arena) (a : Addr) : Arena :=
  { m with
    allocated := update m.allocated a false
    gone := m.gone ++ [a] }

/-- `BlockRun::release`: a run goes back with its last page. -/
def release (m : Arena) (a : Addr) (r : ℕ) : Arena :=
  { m with
    runs := update m.runs r { m.runs r with remaining := (m.runs r).remaining - 1 }
    allocated := fun b =>
      if (m.runs r).remaining = 1 ∧ b ∈ (m.runs r).members then false else m.allocated b
    gone := m.gone ++ [a]
    released := if (m.runs r).remaining = 1 then m.released ++ [r] else m.released }

end Arena

namespace Shared

/-- A block changes. -/
def modBlock (s : Shared T) (a : Addr) (f : Block T → Block T) : Shared T :=
  { s with heap := update s.heap a (f (s.heap a)) }

/-- `BlockChain::new` at the addresses the allocator returned: one standalone
page, or a run of pages linked front to back. -/
def newChain (s : Shared T) (as : List Addr) : Shared T :=
  match as with
  | [a] => { s with
      heap := update s.heap a (Block.new none none)
      arena := s.arena.allocate [a] }
  | as => { s with
      heap := fun b =>
        if b ∈ as then Block.new as[as.idxOf b + 1]? (some s.arena.runCount) else s.heap b
      arena := (s.arena.allocate as).newRun as }

/-- `Block::free`: drop the values from `consumed` on, and give the page back. -/
def free (s : Shared T) (cfg : Config) (a : Addr) : Shared T :=
  { s with
    dropped := s.dropped ++ (s.heap a).drops cfg
    arena := match (s.heap a).run with
      | none => s.arena.deallocate a
      | some r => s.arena.release a r }

/-- `BlockChain::give`: the other chain goes behind. -/
def give (s : Shared T) (self other : List Addr) : Shared T × List Addr :=
  match self.getLast?, other.head? with
  | some z, some b => (s.modBlock z (·.setNext (some b)), self ++ other)
  | _, _ => (s, self ++ other)

end Shared

end Memory

/-! ## Program counters -/

/-- The locals of `pop_batch` up to its reservation. -/
structure Pop where
  size : ℕ
  keep : ℕ
  len : ℕ

/-- Who called `push_batch`: a caller of the queue, or the repair of `pop_batch`. -/
inductive PushRet (T : Type*)
  | user (items : List T)
  | fill (q : Pop) (chead : Head)

/-- The locals of `push_batch`. -/
structure Push (T : Type*) where
  items : List (Option T)
  ret : PushRet T
  blocks : List Addr

/-- The locals of the walk of `push_batch` through its boundary; `root` is the
chain that is not linked yet. -/
structure PushWalk (T : Type*) where
  p : Push T
  phead : Head
  root : List Addr
  remaining : ℕ
  block : Option Addr
  index : ℕ

/-- The locals of the slot loop of `push_batch`, after `done` items. -/
structure Fill (T : Type*) where
  p : Push T
  done : ℕ
  block : Option Addr
  index : ℕ

/-- The locals of the walk of `pop_batch` through its boundary. -/
structure PopWalk where
  q : Pop
  chead : Head
  phead : Head
  block : Option Addr
  index : ℕ
  remaining : ℕ

/-- A `UBQIter`, the call it belongs to, and what it has yielded from its first
position on. -/
structure Iter (T : Type*) where
  size : ℕ
  keep : ℕ
  reserved : ℕ
  base : ℕ
  block : Option Addr
  index : ℕ
  len : ℕ
  pending : ℕ
  out : List T

/-- The next access of a thread. -/
inductive Pc (T : Type*)
  | idle
  | fault
  -- push_batch: initialisation
  | pLoad (p : Push T)
  | pInitSwap (p : Push T)
  | pInitAlloc (p : Push T)
  | pInitCas (p : Push T) (root : Addr)
  | pInitStore (p : Push T) (root : Addr)
  -- push_batch: reservation
  | pReload (p : Push T)
  | pSwap (p : Push T) (phead : Head) (need : ℕ)
  | pAlloc (p : Push T) (phead : Head) (need : ℕ)
  | pCas (p : Push T) (phead : Head)
  -- push_batch: boundary
  | pNext (w : PushWalk T)
  | pLink (w : PushWalk T)
  | pStore (w : PushWalk T) (next : Option Addr)
  -- push_batch: slots
  | pWait (f : Fill T)
  | pWrite (f : Fill T) (next : Option Addr)
  | pDrop (p : Push T)
  -- pop_batch: reservation
  | cLoad0 (size keep : ℕ)
  | cReload (q : Pop)
  | cPhead (q : Pop) (chead : Head)
  | cCas (q : Pop) (chead new : Head)
  | cPost (q : Pop) (chead new : Head)
  | cRevert (q : Pop) (chead new phead : Head)
  -- pop_batch: boundary
  | cWalk (q : Pop) (chead : Head)
  | cNext (w : PopWalk)
  | cSpin (w : PopWalk)
  | cNext2 (w : PopWalk)
  | cStoreP (w : PopWalk)
  | cStoreN (w : PopWalk)
  -- UBQIter
  | iRead (it : Iter T)
  | iNext (it : Iter T)
  | iConsume (it : Iter T) (a : Addr)
  | iReset (it : Iter T) (a : Addr)
  | iPool (it : Iter T) (a : Addr)
  | iFree (it : Iter T) (a : Addr)
  -- is_empty
  | eLoad
  | eSpin (phead : Head)

/-- What the scheduler decides at a step. -/
inductive Act (T : Type*)
  | call (op : Op T)
  | run
  | spurious
  | alloc (as : List Addr)

/-! ## Straight-line pieces of the source -/

section Code

variable {T : Type*}

/-- `usize::div_ceil`. -/
def divCeil (a b : ℕ) : ℕ := (a + b - 1) / b

/-- Return from a call. -/
def ret (s : Shared T) (t : Tid) (op : Op T) (res : Res T) : Shared T × Pc T :=
  ({ s with trace := s.trace ++ [(t, op, res)] }, .idle)

/-- Follow a pointer, or fault on null. -/
def deref (s : Shared T) (p : Option Addr) (k : Addr → Shared T × Pc T) :
    Option (Shared T × Pc T) :=
  match p with
  | none => some (s, .fault)
  | some a => some (k a)

/-- The slots `push_batch` asks its chain to hold, for the head it has read. -/
def pushNeed (cfg : Config) (p : Push T) (phead : Head) : ℕ :=
  p.items.length + 1 - (cfg.bl - phead.index + if phead.hasNext then cfg.bl else 0)

/-- The top of the reservation loop of `push_batch`. -/
def pushLoop (cfg : Config) (p : Push T) (phead : Head) : Pc T :=
  if cfg.bl ≤ phead.index then .pReload p
  else if p.blocks.length * cfg.bl < pushNeed cfg p phead then .pSwap p phead (pushNeed cfg p phead)
  else .pCas p phead

/-- The head a reservation of the items of `p` installs. -/
def pushHead (cfg : Config) (p : Push T) (phead : Head) : Head :=
  { Head.zero with block := phead.block, index := min (phead.index + p.items.length) cfg.bl }

/-- The boundary walk of `push_batch`, once `next` is known. -/
def walkOn (cfg : Config) (w : PushWalk T) (next : Option Addr) : Pc T :=
  if w.remaining < cfg.bl - w.index then .pStore w next
  else .pNext { w with remaining := w.remaining - (cfg.bl - w.index), block := next, index := 0 }

/-- The top of the slot loop of `push_batch`. -/
def fillOn (cfg : Config) (f : Fill T) : Pc T :=
  if f.done < f.p.items.length then
    if f.index + 1 = cfg.bl then .pWait f else .pWrite f none
  else .pDrop f.p

/-- The top of the reservation loop of `pop_batch`. -/
def popLoopWith (add : ℕ → ℕ → ℕ) (cfg : Config) (q : Pop) (chead : Head) : Pc T :=
  if chead.index = cfg.bl then .cReload q
  else if chead.hasNext then
    .cCas q chead { chead with index := min cfg.bl (add chead.index q.len) }
  else .cPhead q chead

/-- The top of the reservation loop of `pop_batch`, with the exact sum. -/
def popLoop (cfg : Config) (q : Pop) (chead : Head) : Pc T := popLoopWith HAdd.hAdd cfg q chead

/-- The boundary walk of `pop_batch`, once `next` is known. -/
def popWalkOn (cfg : Config) (w : PopWalk) (next : Option Addr) : Pc T :=
  if w.remaining < cfg.bl - w.index then .cStoreN w
  else .cNext { w with remaining := w.remaining - (cfg.bl - w.index), block := next, index := 0 }

/-- The position of a head in the order of the blocks. -/
def place (cfg : Config) (s : Shared T) (h : Head) : ℕ :=
  match h.block with
  | none => h.index
  | some a => tokenOf s.linked a * cfg.bl + h.index

/-- The iterator of a reservation of `len` slots. -/
def iterStart (cfg : Config) (s : Shared T) (q : Pop) (chead : Head) (len : ℕ) : Iter T :=
  ⟨q.size, q.keep, len, place cfg s chead, chead.block, chead.index, len, 0, []⟩

/-- The loop of `UBQIter::next`, run to the end. -/
def iterOn (s : Shared T) (t : Tid) (it : Iter T) : Shared T × Pc T :=
  if it.len = 0 then ret s t (.popBatch it.size it.keep) (.popped it.reserved (it.out.take it.keep))
  else (s, .iRead it)

/-- A won claim: cross the boundary, or iterate. -/
def claimedOn (cfg : Config) (s : Shared T) (t : Tid) (q : Pop) (chead new : Head) :
    Shared T × Pc T :=
  if new.index = cfg.bl then (s, .cWalk q chead) else iterOn s t (iterStart cfg s q chead q.len)

/-- Loading `chead` notes the life of its block. -/
def see (s : Shared T) (t : Tid) : Shared T :=
  { s with seen := update s.seen t (s.chead.block.elim 0 (tokenOf s.linked)) }

/-- What `push_batch` returns to. -/
def pushed (cfg : Config) (s : Shared T) (t : Tid) : PushRet T → Shared T × Pc T
  | .user items => ret s t (.pushBatch items) .pushed
  | .fill q chead => iterOn s t (iterStart cfg s q chead q.len)

/-- A slot has been read: on to the next link, the counter or the next slot. -/
def iterRead (cfg : Config) (s : Shared T) (it : Iter T) (a : Addr) : Shared T × Pc T :=
  let it' := { it with index := it.index + 1, len := it.len - 1, pending := it.pending + 1 }
  if it.index + 1 = cfg.bl then (s, .iNext it')
  else if it.len - 1 = 0 then (s, .iConsume it' a) else (s, .iRead it')

/-- `grow_to_fit_with` after its look at the pool. -/
def grown (cfg : Config) (p : Push T) (phead : Head) (need : ℕ) : Pc T :=
  if p.blocks.length * cfg.bl < need then .pAlloc p phead need else .pCas p phead

/-- A won reservation: cross the boundary, or fill the slots. -/
def reserved (cfg : Config) (t : Tid) (s : Shared T) (p : Push T) (phead : Head) :
    Shared T × Pc T :=
  ({ s with
      phead := (pushHead cfg p phead).word cfg
      log := s.log.reserve t (place cfg s phead) p.items },
    if (pushHead cfg p phead).index = cfg.bl then
      .pNext ⟨{ p with blocks := [] }, phead, p.blocks, p.items.length, phead.block, phead.index⟩
    else fillOn cfg ⟨p, 0, phead.block, phead.index⟩)

/-- Advance the slot loop of `push_batch`; `next` is known at the end of a block. -/
def Fill.advance (cfg : Config) (f : Fill T) (next : Option Addr) : Fill T :=
  if f.index + 1 = cfg.bl then { f with done := f.done + 1, block := next, index := 0 }
  else { f with done := f.done + 1, index := f.index + 1 }

/-- The store that ends the boundary walk of `pop_batch`, with `len` slots reserved. -/
def settled (cfg : Config) (t : Tid) (s : Shared T) (w : PopWalk) (h : Head) (len : ℕ) :
    Shared T × Pc T :=
  let first := cfg.bl - w.chead.index
  iterOn { s with
      chead := h.word cfg
      log := s.log.claim t (place cfg s w.chead + first) (len - first) } t
    (iterStart cfg s w.q w.chead len)

/-- One atomic step of thread `t`; `none` when the scheduler's choice does not
fit the program counter.  `add` computes the sums of `pop_batch` that no check of the
source keeps within a word. -/
def stepWith (add : ℕ → ℕ → ℕ) (cfg : Config) (t : Tid) (act : Act T) (s : Shared T) (pc : Pc T) :
    Option (Shared T × Pc T) :=
  match act, pc with
  | .call (.pushBatch items), .idle =>
    if items.isEmpty then some (ret s t (.pushBatch items) .pushed)
    else some (s, .pLoad ⟨items.map some, .user items, []⟩)
  | .call (.popBatch size keep), .idle =>
    if size = 0 then some (ret s t (.popBatch size keep) (.popped 0 []))
    else some (s, .cLoad0 size keep)
  | .call .isEmpty, .idle => some (s, .eLoad)
  -- push_batch: initialisation
  | .run, .pLoad p =>
    if s.phead = Head.zero then some (s, .pInitSwap p) else some (s, pushLoop cfg p s.phead)
  | .run, .pInitSwap p =>
    match s.pool with
    | none => some (s, .pInitAlloc p)
    | some a => some ({ s with pool := none }, .pInitCas p a)
  | .alloc as, .pInitAlloc p =>
    match as with
    | [a] => if s.arena.allocated a then none else some (s.newChain [a], .pInitCas p a)
    | _ => none
  | .run, .pInitCas p root =>
    if s.phead = Head.zero then
      some ({ s with phead := Head.fromPtr (some root), linked := s.linked ++ [root] },
        .pInitStore p root)
    else some (s, pushLoop cfg { p with blocks := [root] } Head.zero)
  | .run, .pInitStore p root =>
    some ({ s with chead := Head.fromPtr (some root) },
      pushLoop cfg p (Head.fromPtr (some root)))
  -- push_batch: reservation
  | .run, .pReload p => some (s, pushLoop cfg p s.phead)
  | .run, .pSwap p phead need =>
    match s.pool with
    | none => some (s, grown cfg p phead need)
    | some a =>
      let (s', blocks) := { s with pool := none }.give p.blocks [a]
      some (s', grown cfg { p with blocks := blocks } phead need)
  | .alloc as, .pAlloc p phead need =>
    if as.length = divCeil (need - p.blocks.length * cfg.bl) cfg.bl ∧ as.Nodup ∧
        ∀ a ∈ as, s.arena.allocated a = false then
      let (s', blocks) := (s.newChain as).give p.blocks as
      some (s', .pCas { p with blocks := blocks } phead)
    else none
  | .run, .pCas p phead =>
    if s.phead = phead then some (reserved cfg t s p phead) else some (s, pushLoop cfg p s.phead)
  | .spurious, .pCas p _ => some (s, pushLoop cfg p s.phead)
  -- push_batch: boundary
  | .run, .pNext w => deref s w.block fun a =>
    match (s.heap a).next with
    | none => (s, .pLink w)
    | some n => (s, walkOn cfg w (some n))
  | .run, .pLink w => deref s w.block fun a =>
    ({ s.modBlock a (·.setNext w.root.head?) with linked := s.linked ++ w.root },
      walkOn cfg { w with root := [] } w.root.head?)
  | .run, .pStore w next =>
    some ({ s with phead := Head.word cfg ⟨w.block, w.index + w.remaining, next.isSome⟩ },
      fillOn cfg ⟨{ w.p with blocks := w.root }, 0, w.phead.block, w.phead.index⟩)
  -- push_batch: slots
  | .run, .pWait f => deref s f.block fun a =>
    match (s.heap a).next with
    | none => (s, .pWait f)
    | some n => (s, .pWrite f (some n))
  | .run, .pWrite f next => deref s f.block fun a =>
    (s.modBlock a (fun b => b.setSlot f.index ((b.slots f.index).put (f.p.items[f.done]?).join)),
      fillOn cfg (f.advance cfg next))
  | .run, .pDrop p =>
    match p.blocks with
    | [] => some (pushed cfg s t p.ret)
    | b :: rest => some (s.free cfg b, .pDrop { p with blocks := rest })
  -- pop_batch: reservation
  | .run, .cLoad0 size keep =>
    if s.chead = Head.zero then some (ret s t (.popBatch size keep) (.popped 0 []))
    else some (s, .cReload ⟨size, keep, size⟩)
  | .run, .cReload q => some (see s t, popLoopWith add cfg q s.chead)
  | .run, .cPhead q chead =>
    if s.phead.block = chead.block then
      let len := min (s.phead.index - chead.index) q.len
      if len = 0 then some (ret s t (.popBatch q.size q.keep) (.popped 0 []))
      else some (s, .cCas { q with len := len } chead
        ⟨chead.block, min cfg.bl (add chead.index len), false⟩)
    else some (s, .cCas q chead ⟨chead.block, min cfg.bl (add chead.index q.len), true⟩)
  | .run, .cCas q chead new =>
    if s.chead = chead then
      let s' := { s with
        chead := new.word cfg
        log := s.log.claim t (place cfg s chead) (new.index - chead.index) }
      if chead.hasNext then some (claimedOn cfg s' t q chead new)
      else some (s', .cPost q chead new)
    else some (see s t, popLoopWith add cfg q s.chead)
  | .spurious, .cCas q _ _ => some (see s t, popLoopWith add cfg q s.chead)
  | .run, .cPost q chead new =>
    if s.phead.block = chead.block ∧ s.phead.index < new.index then
      if new.index = cfg.bl then some (s, .cRevert q chead new s.phead)
      else some (s,
        .pLoad ⟨List.replicate (new.index - s.phead.index) none, .fill q chead, []⟩)
    else some (claimedOn cfg s t q chead new)
  | .run, .cRevert q chead new phead =>
    let s' := if s.chead = new.word cfg then
        { s with chead := { phead with hasNext := false } } else s
    let len := min (phead.index - chead.index) q.len
    if len = 0 then some (ret s' t (.popBatch q.size q.keep) (.popped 0 []))
    else some (s', .cWalk { q with len := len } chead)
  -- pop_batch: boundary
  | .run, .cWalk q chead =>
    some (s, .cNext ⟨q, chead, s.phead, chead.block, chead.index, q.len⟩)
  | .run, .cNext w => deref s w.block fun a =>
    (s, if w.phead.block = w.block then
        if w.phead.index = cfg.bl then .cSpin w else .cStoreP w
      else popWalkOn cfg w (s.heap a).next)
  | .run, .cSpin w =>
    let w' := { w with phead := s.phead }
    some (s, if s.phead.block = w.block then
        if s.phead.index = cfg.bl then .cSpin w' else .cStoreP w'
      else .cNext2 w')
  | .run, .cNext2 w => deref s w.block fun a => (s, popWalkOn cfg w (s.heap a).next)
  | .run, .cStoreP w =>
    let rest := w.remaining - min (w.phead.index - w.index) w.remaining
    some (settled cfg t s w ⟨w.block, min w.phead.index (add w.index w.remaining), false⟩
      (w.q.len - rest))
  | .run, .cStoreN w =>
    some (settled cfg t s w ⟨w.block, add w.index w.remaining, true⟩ w.q.len)
  -- UBQIter
  | .run, .iRead it => deref s it.block fun a =>
    let x := (s.heap a).slots it.index
    let pos := tokenOf s.linked a * cfg.bl + it.index
    match x.state, x.value with
    | .zero, _ => (s, .iRead it)
    | .skip, _ => iterRead cfg { s with log := s.log.deliver t pos none } it a
    | .written, none => (s, .fault)
    | .written, some v =>
      iterRead cfg
        { s.modBlock a (·.setSlot it.index { x with read := true }) with
          log := s.log.deliver t pos (some v) }
        { it with out := it.out ++ [v] } a
  | .run, .iNext it => deref s it.block fun a =>
    (s, .iConsume { it with block := (s.heap a).next, index := 0 } a)
  | .run, .iConsume it a =>
    let s' := s.modBlock a (·.addConsumed it.pending)
    let it' := { it with pending := 0 }
    if (s.heap a).consumed + it.pending = cfg.bl then
      if (s.heap a).run.isNone then some (s', .iReset it' a) else some (s', .iFree it' a)
    else some (iterOn s' t it')
  | .run, .iReset it a => some (s.modBlock a (·.reset), .iPool it a)
  | .run, .iPool it a =>
    if s.pool.isNone then some (iterOn { s with pool := some a } t it) else some (s, .iFree it a)
  | .run, .iFree it a => some (iterOn (s.free cfg a) t it)
  -- is_empty
  | .run, .eLoad =>
    if s.phead = Head.zero then some (ret s t .isEmpty (.answer true)) else some (s, .eSpin s.phead)
  | .run, .eSpin phead =>
    if s.chead = Head.zero then some (s, .eSpin phead)
    else some (ret s t .isEmpty
      (.answer (phead.block == s.chead.block && phead.index == s.chead.index)))
  | _, _ => none

/-- A step with exact sums. -/
def step (cfg : Config) : Tid → Act T → Shared T → Pc T → Option (Shared T × Pc T) :=
  stepWith HAdd.hAdd cfg

/-! ### What a step can do -/

section Post

variable {s : Shared T} {P : Shared T × Pc T → Prop}

theorem deref_post {p : Option Addr} {k : Addr → Shared T × Pc T} (hnull : p = none → P (s, .fault))
    (hk : ∀ a, p = some a → P (k a)) : Post P (deref s p k) := by
  cases p with
  | none => exact hnull rfl
  | some a => exact hk a rfl

/-- A dereference that does not fault. -/
theorem deref_found {p : Option Addr} {k : Addr → Shared T × Pc T} {Q : Addr → Prop}
    (hp : ∃ a, p = some a ∧ Q a) (hk : ∀ a, p = some a → Q a → P (k a)) : Post P (deref s p k) := by
  obtain ⟨a, rfl, hQ⟩ := hp
  exact hk a rfl hQ

/-- The steps other than `run` start a call, fail a compare-exchange or allocate. -/
theorem step_cases {cfg : Config} {t : Tid} {act : Act T} {pc : Pc T}
    (call : ∀ op, act = .call op → pc = .idle → Post P (step cfg t (.call op) s .idle))
    (run : act = .run → Post P (step cfg t .run s pc))
    (pCas : ∀ p phead, act = .spurious → pc = .pCas p phead → P (s, pushLoop cfg p s.phead))
    (cCas : ∀ q chead new, act = .spurious → pc = .cCas q chead new →
      P (see s t, popLoop cfg q s.chead))
    (pInitAlloc : ∀ p a, act = .alloc [a] → pc = .pInitAlloc p → s.arena.allocated a = false →
      P (s.newChain [a], .pInitCas p a))
    (pAlloc : ∀ as p phead need, act = .alloc as → pc = .pAlloc p phead need →
      as.length = divCeil (need - p.blocks.length * cfg.bl) cfg.bl → as.Nodup →
      (∀ a ∈ as, s.arena.allocated a = false) →
      P (((s.newChain as).give p.blocks as).1,
        .pCas { p with blocks := ((s.newChain as).give p.blocks as).2 } phead)) :
    Post P (step cfg t act s pc) := by
  cases act with
  | call op =>
    cases pc with
    | idle => exact call op rfl rfl
    | _ => cases op <;> trivial
  | run => exact run rfl
  | spurious =>
    cases pc with
    | pCas p phead => exact pCas p phead rfl rfl
    | cCas q chead new => exact cCas q chead new rfl rfl
    | _ => trivial
  | alloc as =>
    cases pc with
    | pInitAlloc p =>
      simp only [step, stepWith]
      split
      · split
        · trivial
        · rename_i a hfree
          exact pInitAlloc p a rfl rfl (by simpa using hfree)
      · trivial
    | pAlloc p phead need =>
      simp only [step, stepWith]
      split
      · rename_i h
        exact pAlloc as p phead need rfl rfl h.1 h.2.1 h.2.2
      · trivial
    | _ => trivial

end Post

end Code

/-- A new queue. -/
def Shared.new {T : Type*} : Shared T where
  phead := Head.zero
  chead := Head.zero
  pool := none
  heap := fun _ => Block.new none none
  arena := ⟨fun _ => false, fun _ => ⟨[], 0⟩, 0, [], [], []⟩
  dropped := []
  linked := []
  log := Log.empty
  seen := fun _ => 0
  trace := []

/-- The MPMC queue as an interleaved system. -/
def system (T : Type*) (cfg : Config) : Interleave.System Tid (Shared T) (Pc T) :=
  .ofStep Shared.new .idle (step cfg)

end Mpmc
