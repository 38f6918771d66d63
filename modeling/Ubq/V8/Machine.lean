/-
# The v8 queue as an interleaved machine

A step-by-step model of `src/v8/queue.rs` and `src/v8/freelist.rs`.  Every
atomic access of `producer.block`, `producer.index`, `consumer.block`,
`consumer.index`, `next`, `produced`, `consumed`, `consumed_vblocks` and the
freelist head is one step; payload slots are copied one at a time, so a segment
can be half copied when another thread moves.  The program counter `Pc` carries
the locals that are live at that line, under the names of the source.

Conventions.

* `usize` is `ℕ`: packed indices do not wrap.  `index & 1` is `index % 2`,
  `index >> 1` is `index / 2` and `(x << 1) + b` is `2 * x + b`.
* A pointer is an `Option Addr`; dereferencing null, or moving a value out of a
  slot that was never initialised, ends in `Pc.fault`.
* A `BlockList` is the list of its blocks.  The `next` links inside the blocks
  are written as the source writes them, since they become the queue's links.
* `compare_exchange_weak` may fail without reason: `Act.spurious`.
* Memory comes from the scheduler: `Act.alloc a` hands out any address that is
  not allocated, freed ones included.

The fields of `Shared` after `allocated` are history: they are written, never
read by a branch.  Positions in the history are counted without the sentinel
regions, so position `token * cap + off` is slot `off` of the block `token`.
-/
import Ubq.Interleave
import Ubq.Chain

namespace V8

open Function

/-- `Config`: slots per virtual block and virtual blocks per block, both
nonzero as `Geometry::new` requires. -/
structure Config where
  ns : ℕ
  nv : ℕ
  ns_pos : 0 < ns
  nv_pos : 0 < nv

/-- Slots per block (`Geometry::capacity`). -/
def Config.cap (cfg : Config) : ℕ := cfg.nv * cfg.ns

/-- Index positions per block, the sentinel region included. -/
def Config.stride (cfg : Config) : ℕ := (cfg.nv + 1) * cfg.ns

/-- `decode_index`: token, virtual block and offset of an index position. -/
def decodeIndex (ridx ns nv : ℕ) : ℕ × ℕ × ℕ :=
  (ridx / ns / (nv + 1), ridx / ns % (nv + 1), ridx % ns)

/-- `usize::div_ceil`. -/
def divCeil (a b : ℕ) : ℕ := (a + b - 1) / b

/-- Threads. -/
abbrev Tid := ℕ

/-! ## Shared memory -/

/-- The counters of a vblock. -/
structure VBlock where
  produced : ℕ
  consumed : ℕ

/-- A block. -/
structure Block (T : Type*) where
  next : Option Addr
  consumedVblocks : ℕ
  vblock : ℕ → VBlock
  slots : ℕ → ℕ → Option T

/-- The freelist head: a chain of cached blocks, or the busy token. -/
inductive FreeHead
  | ptr (p : Option Addr)
  | busy
  deriving DecidableEq

/-- The public operations: `push` and `push_batch` are `writeFrom`, `pop` and
`pop_batch` are `readInto`. -/
inductive Op (T : Type*)
  | writeFrom (src : List T)
  | readInto (cap : ℕ)
  | flushFreelist

/-- What an operation hands back: the input values it did not move, the output
buffer's initialised prefix, or the number of freed blocks. -/
inductive Res (T : Type*)
  | left (rest : List T)
  | out (values : List T)
  | freed (n : ℕ)

/-- The words of the queue, its memory and its history. -/
structure Shared (T : Type*) where
  producerBlock : Option Addr
  producerIndex : ℕ
  consumerBlock : Option Addr
  consumerIndex : ℕ
  freelist : FreeHead
  heap : Addr → Block T
  allocated : Addr → Bool
  /-- The blocks in the order of their tokens. -/
  linked : List Addr
  /-- Successful reservations: thread, first position, values. -/
  reservations : List (Tid × ℕ × List T)
  /-- Successful claims: thread, first position, length. -/
  claims : List (Tid × ℕ × ℕ)
  /-- Slots filled by producers: position and value. -/
  copied : List (ℕ × T)
  /-- Values moved out by consumers: thread, position and value. -/
  delivered : List (Tid × ℕ × T)
  /-- Tokens of the blocks handed to `FreeList::recycle`. -/
  recycled : List ℕ
  /-- Finished calls with their results. -/
  trace : List (Tid × Op T × Res T)

section Memory

variable {T : Type*}

/-- A block as `OwnedBlock::new` writes it. -/
def Block.new : Block T := ⟨none, 0, fun _ => ⟨0, 0⟩, fun _ _ => none⟩

/-- `Block::reset`: the counters and the link, not the payload. -/
def Block.reset (b : Block T) : Block T :=
  { b with next := none, consumedVblocks := 0, vblock := fun _ => ⟨0, 0⟩ }

/-- The link is stored. -/
def Block.setNext (b : Block T) (p : Option Addr) : Block T := { b with next := p }

/-- `produced.fetch_add(n)` on virtual block `v`. -/
def Block.addProduced (b : Block T) (v n : ℕ) : Block T :=
  { b with vblock := update b.vblock v ⟨(b.vblock v).produced + n, (b.vblock v).consumed⟩ }

/-- `consumed.fetch_add(n)` on virtual block `v`. -/
def Block.addConsumed (b : Block T) (v n : ℕ) : Block T :=
  { b with vblock := update b.vblock v ⟨(b.vblock v).produced, (b.vblock v).consumed + n⟩ }

/-- A slot is stored. -/
def Block.setSlot (b : Block T) (v off : ℕ) (x : T) : Block T :=
  { b with slots := update b.slots v (update (b.slots v) off (some x)) }

namespace Shared

/-- A block changes. -/
def modBlock (s : Shared T) (a : Addr) (f : Block T → Block T) : Shared T :=
  { s with heap := update s.heap a (f (s.heap a)) }

/-- `OwnedBlock::new` at the address the allocator returned. -/
def alloc (s : Shared T) (a : Addr) : Shared T :=
  { s with heap := update s.heap a Block.new
           allocated := update s.allocated a true }

/-- A block is deallocated. -/
def dealloc (s : Shared T) (a : Addr) : Shared T :=
  { s with allocated := update s.allocated a false }

/-- `BlockList::add_assign`: the right-hand blocks go in front. -/
def addAssign (s : Shared T) (self rhs : List Addr) : Shared T × List Addr :=
  match rhs.getLast? with
  | none => (s, self)
  | some z => (s.modBlock z (·.setNext self.head?), rhs ++ self)

end Shared

end Memory

/-! ## Program counters -/

/-- Where `FreeList::acquire` returns to in `write_from`. -/
inductive AcqRet (T : Type*)
  | first (src : List T) (index : ℕ) (block : Option Addr)
  | root (src : List T) (index : ℕ) (blocks : List Addr)
  | more (src : List T) (index : ℕ) (block : Option Addr) (blocks : List Addr)

/-- Where `FreeList::take` returns to. -/
inductive TakeRet (T : Type*)
  | acquire (ret : AcqRet T) (blocks : List Addr) (remaining : ℕ)
  | flush

/-- `take`'s limit; `none` is the `usize::MAX` of `flush`. -/
def TakeRet.limit {T : Type*} : TakeRet T → Option ℕ
  | acquire _ _ remaining => some remaining
  | flush => none

/-- The locals of the copy loop of `write_from`. -/
structure Write (T : Type*) where
  src : List T
  moved : ℕ
  block : Option Addr
  vblock : ℕ
  offset : ℕ
  blocks : List Addr

/-- The locals of the copy loop of `read_into`; `out` is the filled part of `dst`. -/
structure Read (T : Type*) where
  cap : ℕ
  len : ℕ
  out : List T
  written : ℕ
  token : ℕ
  block : Option Addr
  vblock : ℕ
  offset : ℕ

/-- The locals of `advance_producer`. -/
structure Advance (T : Type*) where
  w : Write T
  token : ℕ
  off : ℕ
  rem : ℕ
  blk : Option Addr
  depth : ℕ

/-- The next access of a thread. -/
inductive Pc (T : Type*)
  | idle
  | fault
  -- write_from
  | wIndex (src : List T)
  | wBlock (src : List T) (index : ℕ)
  | wLoop (src : List T) (index : ℕ) (block : Option Addr) (blocks : List Addr)
  | wReIndex (src : List T) (blocks : List Addr)
  | wReBlock (src : List T) (index : ℕ) (blocks : List Addr)
  | wRoot (src : List T) (index : ℕ) (new blocks : List Addr)
  | wRootStore (src : List T) (index : ℕ) (new blocks : List Addr)
  | wCas (src : List T) (index : ℕ) (block : Option Addr) (blocks : List Addr)
  | wSeg (w : Write T)
  | wNext (w : Write T)
  | wCopy (w : Write T) (next : Option Addr) (i : ℕ)
  | wPublish (w : Write T) (next : Option Addr)
  | wDrop (w : Write T)
  -- advance_producer
  | apFind (w : Write T) (token : ℕ) (curr : Option Addr) (blocks : List Addr)
  | apLink (w : Write T) (token : ℕ) (curr : Addr) (blocks : List Addr)
  | apWalk (a : Advance T)
  | apHas (a : Advance T)
  | apBlock (a : Advance T) (hasNext : ℕ)
  | apIndex (a : Advance T) (hasNext : ℕ)
  -- FreeList::take, FreeList::acquire and FreeList::flush
  | tLoad (ret : TakeRet T)
  | tCas (ret : TakeRet T) (head : Addr)
  | tWalk (ret : TakeRet T) (taken : List Addr) (rest : Option Addr)
  | aAlloc (ret : AcqRet T) (blocks : List Addr) (remaining : ℕ)
  | fDrop (blocks : List Addr) (freed : ℕ)
  -- read_into
  | rIndex (cap : ℕ)
  | rBlock (cap index : ℕ)
  | rLoop (cap index : ℕ) (block : Option Addr)
  | rPidx (cap index : ℕ) (block : Option Addr)
  | rCas (cap index : ℕ) (block : Option Addr) (newIndex : ℕ)
  | rSeg (r : Read T)
  | rProduced (r : Read T)
  | rPending (r : Read T) (produced : ℕ)
  | rCopy (r : Read T) (i : ℕ)
  | rNext (r : Read T)
  | rConsume (r : Read T) (next : Option Addr)
  | rVblocks (r : Read T) (next : Option Addr)
  -- advance_consumer
  | acLoad (r : Read T) (newIndex : ℕ)
  | acLoop (r : Read T) (newIndex pidx : ℕ) (blk : Option Addr)
  | acNext (r : Read T) (newIndex pidx : ℕ) (blk : Option Addr)
  | acBlock (r : Read T) (newIndex : ℕ) (blk : Option Addr)
  | acIndex (r : Read T) (newIndex : ℕ)
  -- FreeList::recycle
  | cReset (r : Read T) (next : Option Addr) (b : Addr)
  | cLoad (r : Read T) (next : Option Addr) (b : Addr)
  | cLink (r : Read T) (next : Option Addr) (b : Addr) (head : FreeHead)
  | cPush (r : Read T) (next : Option Addr) (b : Addr) (head : Option Addr)
  | cFree (r : Read T) (next : Option Addr) (b : Addr)

/-- What the scheduler decides at a step. -/
inductive Act (T : Type*)
  | call (op : Op T)
  | run
  | spurious
  | alloc (a : Addr)

/-! ## Straight-line pieces of the source -/

section Code

variable {T : Type*}

/-- Length of the current segment of the producer's copy loop. -/
def Write.count (cfg : Config) (w : Write T) : ℕ :=
  min (cfg.ns - w.offset) (w.src.length - w.moved)

/-- End of one iteration of the producer's copy loop. -/
def Write.advance (cfg : Config) (w : Write T) (next : Option Addr) : Write T :=
  { w with
    moved := w.moved + w.count cfg
    vblock := if w.vblock + 1 = cfg.nv then 0 else w.vblock + 1
    offset := 0
    block := if w.vblock + 1 = cfg.nv then next else w.block }

/-- Length of the current segment of the consumer's copy loop. -/
def Read.count (cfg : Config) (r : Read T) : ℕ :=
  min (cfg.ns - r.offset) (r.len - r.written)

/-- End of one iteration of the consumer's copy loop. -/
def Read.advance (cfg : Config) (r : Read T) (next : Option Addr) : Read T :=
  { r with
    written := r.written + r.count cfg
    vblock := if r.vblock + 1 = cfg.nv then 0 else r.vblock + 1
    offset := 0
    block := if r.vblock + 1 = cfg.nv then next else r.block
    token := if r.vblock + 1 = cfg.nv then r.token + 1 else r.token }

/-- The packed index a reservation of `len` slots installs. -/
def reserveIndex (cfg : Config) (token vblock offset len hasNext : ℕ) : ℕ :=
  2 * (cfg.stride * token + min (vblock * cfg.ns + offset + len) cfg.cap) + hasNext

/-- The consumer's `new_index` once `producer.index` has been read as `pidx`. -/
def clampIndex (cfg : Config) (newIndex token pidx : ℕ) : ℕ :=
  if token = pidx / cfg.stride then 2 * (min newIndex (2 * pidx) / 2)
  else 2 * (newIndex / 2) + 1

/-- The virtual-block digit of an index position is the sentinel. -/
def isSentinel (cfg : Config) (ridx : ℕ) : Bool := ridx / cfg.ns % (cfg.nv + 1) = cfg.nv

/-- `FreeList::acquire` has collected `blocks`; continue in `write_from`. -/
def resume (s : Shared T) : AcqRet T → List Addr → Shared T × Pc T
  | .first src index block, new => (s, .wLoop src index block new)
  | .root src index blocks, new => (s, .wRoot src index new blocks)
  | .more src index block blocks, new =>
    let (s', blocks') := s.addAssign blocks new
    (s', .wCas src index block blocks')

/-- Enter `FreeList::acquire(count)`. -/
def acquire (s : Shared T) (ret : AcqRet T) (count : ℕ) : Shared T × Pc T :=
  if count = 0 then resume s ret [] else (s, .tLoad (.acquire ret [] count))

/-- `FreeList::take` returns the list `cached`. -/
def took (s : Shared T) (ret : TakeRet T) (cached : List Addr) : Shared T × Pc T :=
  match ret with
  | .acquire ret blocks remaining =>
    let (s', blocks') := s.addAssign blocks cached
    if remaining - cached.length = 0 then resume s' ret blocks'
    else (s', .aAlloc ret blocks' (remaining - cached.length))
  | .flush => (s, .fDrop cached 0)

/-- The provisioning test of `write_from`, then on to the reservation. -/
def provision (cfg : Config) (s : Shared T) (src : List T) (index : ℕ) (block : Option Addr)
    (blocks : List Addr) : Shared T × Pc T :=
  let (_, vblock, offset) := decodeIndex (index / 2) cfg.ns cfg.nv
  if cfg.cap * (blocks.length + index % 2 + 1) - (cfg.ns * vblock + offset) ≤ src.length then
    acquire s (.more src index block blocks)
      (divCeil (src.length - cfg.cap * blocks.length) cfg.cap)
  else (s, .wCas src index block blocks)

/-- Follow a pointer, or fault on null. -/
def deref (s : Shared T) (p : Option Addr) (k : Addr → Shared T × Pc T) :
    Option (Shared T × Pc T) :=
  match p with
  | none => some (s, .fault)
  | some a => some (k a)

/-- Return from a call. -/
def ret (s : Shared T) (t : Tid) (op : Op T) (res : Res T) : Shared T × Pc T :=
  ({ s with trace := s.trace ++ [(t, op, res)] }, .idle)

/-! ## The machine -/

/-- Successful `compare_exchange_weak` on `producer.index` and what follows. -/
def reserved (cfg : Config) (t : Tid) (s : Shared T) (src : List T) (index : ℕ)
    (block : Option Addr) (blocks : List Addr) : Shared T × Pc T :=
  let (token, vblock, offset) := decodeIndex (index / 2) cfg.ns cfg.nv
  let newIndex := reserveIndex cfg token vblock offset src.length (index % 2)
  let s' := { s with
    producerIndex := newIndex
    reservations := s.reservations ++ [(t, token * cfg.cap + (vblock * cfg.ns + offset), src)] }
  if isSentinel cfg (newIndex / 2) then
    (s', .apFind ⟨src, 0, block, vblock, offset, []⟩ token block blocks)
  else (s', .wSeg ⟨src, 0, block, vblock, offset, blocks⟩)

/-- Successful `compare_exchange_weak` on `consumer.index` and what follows. -/
def claimed (cfg : Config) (t : Tid) (s : Shared T) (cap index : ℕ) (block : Option Addr)
    (newIndex : ℕ) : Shared T × Pc T :=
  let (token, vblock, offset) := decodeIndex (index / 2) cfg.ns cfg.nv
  let len := newIndex / 2 - index / 2
  let s' := { s with
    consumerIndex := newIndex
    claims := s.claims ++ [(t, token * cfg.cap + (vblock * cfg.ns + offset), len)] }
  let r : Read T := ⟨cap, len, [], 0, token, block, vblock, offset⟩
  if isSentinel cfg (newIndex / 2) then (s', .acLoad r newIndex) else (s', .rSeg r)

/-- One iteration of the walk of `advance_consumer`. -/
def advanceLoop (cfg : Config) (r : Read T) (newIndex pidx : ℕ) (blk : Option Addr) : Pc T :=
  let nidx := newIndex / 2
  if nidx / cfg.ns / (cfg.nv + 1) = pidx / cfg.ns / (cfg.nv + 1) then
    let count := min (r.cap - r.len) (pidx - nidx)
    .acBlock { r with len := r.len + count } (2 * (nidx + count)) blk
  else if isSentinel cfg nidx then .acNext r newIndex pidx blk
  else
    let count := min (r.cap - r.len) cfg.cap
    let r' := { r with len := r.len + count }
    if count < cfg.cap then .acBlock r' (2 * (nidx + count) + 1) blk
    else .acLoop r' (2 * (nidx + count) + 1) pidx blk

/-- One atomic step of thread `t`; `none` when the scheduler's choice does not
fit the program counter. -/
def step (cfg : Config) (t : Tid) (act : Act T) (s : Shared T) (pc : Pc T) :
    Option (Shared T × Pc T) :=
  match act, pc with
  | .call (.writeFrom src), .idle =>
    if src.isEmpty then some (ret s t (.writeFrom src) (.left src)) else some (s, .wIndex src)
  | .call (.readInto cap), .idle =>
    if cap = 0 then some (ret s t (.readInto cap) (.out [])) else some (s, .rIndex cap)
  | .call .flushFreelist, .idle => some (s, .tLoad .flush)
  -- write_from
  | .run, .wIndex src => some (s, .wBlock src s.producerIndex)
  | .run, .wBlock src index =>
    some (acquire s (.first src index s.producerBlock) (src.length / cfg.cap))
  | .run, .wLoop src index block blocks =>
    if isSentinel cfg (index / 2) then some (s, .wReIndex src blocks)
    else if block.isNone then some (acquire s (.root src index blocks) 1)
    else some (provision cfg s src index block blocks)
  | .run, .wReIndex src blocks => some (s, .wReBlock src s.producerIndex blocks)
  | .run, .wReBlock src index blocks => some (s, .wLoop src index s.producerBlock blocks)
  | .run, .wRoot src index new blocks =>
    if s.producerBlock.isNone then
      some ({ s with producerBlock := new.head?, linked := s.linked ++ new },
        .wRootStore src index new blocks)
    else
      let (s', blocks') := s.addAssign blocks new
      some (s', .wReIndex src blocks')
  | .run, .wRootStore src index new blocks =>
    some (provision cfg { s with consumerBlock := new.head? } src index new.head? blocks)
  | .run, .wCas src index block blocks =>
    if s.producerIndex = index then some (reserved cfg t s src index block blocks)
    else some (s, .wReBlock src s.producerIndex blocks)
  | .spurious, .wCas src _ _ blocks => some (s, .wReBlock src s.producerIndex blocks)
  | .run, .wSeg w =>
    if w.moved < w.src.length then
      if w.vblock + 1 = cfg.nv then some (s, .wNext w) else some (s, .wCopy w none 0)
    else some (s, .wDrop w)
  | .run, .wNext w => deref s w.block fun a => (s, .wCopy w (s.heap a).next 0)
  | .run, .wCopy w next i =>
    if i < w.count cfg then
      match w.src[w.moved + i]? with
      | none => none
      | some v => deref s w.block fun a =>
        ({ s.modBlock a (·.setSlot w.vblock (w.offset + i) v) with
            copied := s.copied ++
              [(tokenOf s.linked a * cfg.cap + (w.vblock * cfg.ns + (w.offset + i)), v)] },
          .wCopy w next (i + 1))
    else some (s, .wPublish w next)
  | .run, .wPublish w next => deref s w.block fun a =>
    (s.modBlock a (·.addProduced w.vblock (w.count cfg)), .wSeg (w.advance cfg next))
  | .run, .wDrop w =>
    match w.blocks with
    | [] => some (ret s t (.writeFrom w.src) (.left (w.src.drop w.moved)))
    | b :: rest => some (s.dealloc b, .wDrop { w with blocks := rest })
  -- advance_producer
  | .run, .apFind w token curr blocks => deref s curr fun a =>
    match (s.heap a).next with
    | none => (s, .apLink w token a blocks)
    | some n => (s, .apFind w token (some n) blocks)
  | .run, .apLink w token curr blocks =>
    some ({ s.modBlock curr (·.setNext blocks.head?) with linked := s.linked ++ blocks },
      .apWalk ⟨w, token, w.vblock * cfg.ns + w.offset, w.src.length, w.block, 0⟩)
  | .run, .apWalk a =>
    if cfg.cap - a.off ≤ a.rem then deref s a.blk fun b =>
      (s, .apWalk { a with
        rem := a.rem - (cfg.cap - a.off), off := 0, blk := (s.heap b).next, depth := a.depth + 1 })
    else some (s, .apHas a)
  | .run, .apHas a => deref s a.blk fun b =>
    (s, .apBlock a (if (s.heap b).next.isNone then 0 else 1))
  | .run, .apBlock a hasNext => some ({ s with producerBlock := a.blk }, .apIndex a hasNext)
  | .run, .apIndex a hasNext =>
    some ({ s with producerIndex :=
        2 * (cfg.stride * (a.token + a.depth) + a.off + a.rem) + hasNext }, .wSeg a.w)
  -- FreeList::take
  | .run, .tLoad ret =>
    match s.freelist with
    | .ptr (some a) => some (s, .tCas ret a)
    | _ => some (took s ret [])
  | .run, .tCas ret head =>
    if s.freelist = .ptr (some head) then
      some ({ s with freelist := .busy }, .tWalk ret [] (some head))
    else match s.freelist with
      | .ptr (some a) => some (s, .tCas ret a)
      | _ => some (took s ret [])
  | .spurious, .tCas ret _ =>
    match s.freelist with
    | .ptr (some a) => some (s, .tCas ret a)
    | _ => some (took s ret [])
  | .run, .tWalk ret taken rest =>
    match rest with
    | some a =>
      if ret.limit.all (taken.length < ·) then
        some (s, .tWalk ret (taken ++ [a]) (s.heap a).next)
      else some (severed s ret taken rest)
    | none => some (severed s ret taken rest)
  -- FreeList::acquire
  | .alloc a, .aAlloc ret blocks remaining =>
    if s.allocated a then none
    else
      let s' := (s.alloc a).modBlock a (·.setNext blocks.head?)
      if remaining - 1 = 0 then some (resume s' ret (a :: blocks))
      else some (s', .tLoad (.acquire ret (a :: blocks) (remaining - 1)))
  -- FreeList::flush
  | .run, .fDrop blocks freed =>
    match blocks with
    | [] => some (V8.ret s t .flushFreelist (.freed freed))
    | b :: rest => some (s.dealloc b, .fDrop rest (freed + 1))
  -- read_into
  | .run, .rIndex cap => some (s, .rBlock cap s.consumerIndex)
  | .run, .rBlock cap index => some (s, .rLoop cap index s.consumerBlock)
  | .run, .rLoop cap index block =>
    let (token, vblock, offset) := decodeIndex (index / 2) cfg.ns cfg.nv
    if vblock = cfg.nv then some (s, .rIndex cap)
    else if index % 2 = 0 then some (s, .rPidx cap index block)
    else if block.isNone then some (s, .rIndex cap)
    else some (s, .rCas cap index block
      (reserveIndex cfg token vblock offset cap (index % 2)))
  | .run, .rPidx cap index block =>
    let (token, vblock, offset) := decodeIndex (index / 2) cfg.ns cfg.nv
    let pidx := s.producerIndex / 2
    if index / 2 = pidx then some (V8.ret s t (.readInto cap) (.out []))
    else if block.isNone then some (s, .rIndex cap)
    else some (s, .rCas cap index block
      (clampIndex cfg (reserveIndex cfg token vblock offset cap (index % 2)) token pidx))
  | .run, .rCas cap index block newIndex =>
    if s.consumerIndex = index then some (claimed cfg t s cap index block newIndex)
    else some (s, .rBlock cap s.consumerIndex)
  | .spurious, .rCas cap _ _ _ => some (s, .rBlock cap s.consumerIndex)
  | .run, .rSeg r =>
    if r.written < r.len then some (s, .rProduced r)
    else some (V8.ret s t (.readInto r.cap) (.out r.out))
  | .run, .rProduced r => deref s r.block fun a =>
    let produced := ((s.heap a).vblock r.vblock).produced
    if produced = cfg.ns then (s, .rCopy r 0) else (s, .rPending r produced)
  | .run, .rPending r produced =>
    let pidx := s.producerIndex / 2
    if pidx / cfg.ns = (cfg.nv + 1) * r.token + r.vblock ∧ produced = pidx % cfg.ns ∧
        r.offset + r.count cfg ≤ produced then some (s, .rCopy r 0)
    else some (s, .rProduced r)
  | .run, .rCopy r i =>
    if i < r.count cfg then deref s r.block fun a =>
      match (s.heap a).slots r.vblock (r.offset + i) with
      | none => (s, .fault)
      | some v => ({ s with delivered := s.delivered ++
          [(t, tokenOf s.linked a * cfg.cap + (r.vblock * cfg.ns + (r.offset + i)), v)] },
        .rCopy { r with out := r.out ++ [v] } (i + 1))
    else if r.vblock + 1 = cfg.nv then some (s, .rNext r) else some (s, .rConsume r none)
  | .run, .rNext r => deref s r.block fun a => (s, .rConsume r (s.heap a).next)
  | .run, .rConsume r next => deref s r.block fun a =>
    let s' := s.modBlock a (·.addConsumed r.vblock (r.count cfg))
    if ((s.heap a).vblock r.vblock).consumed + r.count cfg = cfg.ns then (s', .rVblocks r next)
    else (s', .rSeg (r.advance cfg next))
  | .run, .rVblocks r next => deref s r.block fun a =>
    let s' := s.modBlock a (fun b => { b with consumedVblocks := b.consumedVblocks + 1 })
    if (s.heap a).consumedVblocks + 1 = cfg.nv then
      ({ s' with recycled := s.recycled ++ [tokenOf s.linked a] }, .cReset r next a)
    else (s', .rSeg (r.advance cfg next))
  -- advance_consumer
  | .run, .acLoad r newIndex =>
    let pidx := s.producerIndex / 2
    if pidx / cfg.ns / (cfg.nv + 1) = r.token ∨ isSentinel cfg pidx then
      some (s, .acLoad r newIndex)
    else some (s, .acLoop r newIndex pidx r.block)
  | .run, .acLoop r newIndex pidx blk => some (s, advanceLoop cfg r newIndex pidx blk)
  | .run, .acNext r newIndex pidx blk => deref s blk fun a =>
    (s, .acLoop r (2 * (newIndex / 2 + cfg.ns) + 1) pidx (s.heap a).next)
  | .run, .acBlock r newIndex blk => some ({ s with consumerBlock := blk }, .acIndex r newIndex)
  | .run, .acIndex r newIndex =>
    let first := cfg.cap - (r.vblock * cfg.ns + r.offset)
    some ({ s with
      consumerIndex := newIndex
      claims := s.claims ++ [(t, (r.token + 1) * cfg.cap, r.len - first)] }, .rSeg r)
  -- FreeList::recycle
  | .run, .cReset r next b => some (s.modBlock b Block.reset, .cLoad r next b)
  | .run, .cLoad r next b => some (s, .cLink r next b s.freelist)
  | .run, .cLink r next b head =>
    match head with
    | .busy => some (s, .cFree r next b)
    | .ptr p => some (s.modBlock b (·.setNext p), .cPush r next b p)
  | .run, .cPush r next b head =>
    if s.freelist = .ptr head then
      some ({ s with freelist := .ptr (some b) }, .rSeg (r.advance cfg next))
    else some (s, .cLink r next b s.freelist)
  | .spurious, .cPush r next b _ => some (s, .cLink r next b s.freelist)
  | .run, .cFree r next b => some (s.dealloc b, .rSeg (r.advance cfg next))
  | _, _ => none
where
  /-- End of `FreeList::take`: sever the taken prefix and publish the rest. -/
  severed (s : Shared T) (ret : TakeRet T) (taken : List Addr) (rest : Option Addr) :
      Shared T × Pc T :=
    match taken.getLast? with
    | none => (s, .fault)
    | some z => took { s.modBlock z (·.setNext none) with freelist := .ptr rest } ret taken

section Post

variable {P : Shared T × Pc T → Prop} {s : Shared T}

theorem deref_post {p : Option Addr} {k : Addr → Shared T × Pc T} (hnull : p = none → P (s, .fault))
    (hk : ∀ a, p = some a → P (k a)) : Post P (deref s p k) := by
  cases p with
  | none => exact hnull rfl
  | some a => exact hk a rfl

/-- `FreeList::take` looks at the head of the freelist, again or for the first time. -/
theorem reload_post {r : TakeRet T} (hsome : ∀ a, s.freelist = .ptr (some a) → P (s, .tCas r a))
    (hnone : (∀ a, s.freelist ≠ .ptr (some a)) → P (took s r [])) :
    Post P (match s.freelist with
      | .ptr (some a) => some (s, .tCas r a)
      | _ => some (took s r [])) := by
  split
  · exact hsome _ ‹_›
  · exact hnone ‹_›

/-- The steps by the scheduler's choice: a call, an internal step, a spurious failure of a
weak exchange, or an allocation. -/
theorem step_cases {motive : Act T → Pc T → Shared T × Pc T → Prop} {cfg : Config} {t : Tid}
    {act : Act T} {pc : Pc T}
    (call : ∀ op, Post (motive (.call op) .idle) (step cfg t (.call op) s .idle))
    (run : Post (motive .run pc) (step cfg t .run s pc))
    (wCas : ∀ src index block blocks, motive .spurious (.wCas src index block blocks)
      (s, .wReBlock src s.producerIndex blocks))
    (tCas : ∀ ret head,
      Post (motive .spurious (.tCas ret head)) (step cfg t .spurious s (.tCas ret head)))
    (rCas : ∀ cap index block newIndex, motive .spurious (.rCas cap index block newIndex)
      (s, .rBlock cap s.consumerIndex))
    (cPush : ∀ r next b head,
      motive .spurious (.cPush r next b head) (s, .cLink r next b s.freelist))
    (alloc : ∀ a ret blocks remaining, Post (motive (.alloc a) (.aAlloc ret blocks remaining))
      (step cfg t (.alloc a) s (.aAlloc ret blocks remaining))) :
    Post (motive act pc) (step cfg t act s pc) := by
  cases act with
  | call op =>
    cases pc with
    | idle => exact call op
    | _ => cases op <;> trivial
  | run => exact run
  | spurious =>
    cases pc with
    | wCas src index block blocks => exact wCas src index block blocks
    | tCas ret head => exact tCas ret head
    | rCas cap index block newIndex => exact rCas cap index block newIndex
    | cPush r next b head => exact cPush r next b head
    | _ => trivial
  | alloc a =>
    cases pc with
    | aAlloc ret blocks remaining => exact alloc a ret blocks remaining
    | _ => trivial

end Post

end Code

/-- `UBQ::with_config`: one block, installed in both heads. -/
def Shared.new {T : Type*} : Shared T where
  producerBlock := some 0
  producerIndex := 0
  consumerBlock := some 0
  consumerIndex := 0
  freelist := .ptr none
  heap := fun _ => Block.new
  allocated := fun a => a == 0
  linked := [0]
  reservations := []
  claims := []
  copied := []
  delivered := []
  recycled := []
  trace := []

/-- The queue under any number of threads and any schedule. -/
def system (T : Type*) (cfg : Config) : Interleave.System Tid (Shared T) (Pc T) :=
  .ofStep Shared.new .idle (step cfg)

end V8
