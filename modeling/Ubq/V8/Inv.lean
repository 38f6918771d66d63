/-
# The invariant of the v8 queue

The invariant is a rely-guarantee proof outline.  `Inv` relates the shared
state to a ghost value: the ledger of positions, the owner of every address,
the completion state of every virtual block, and the thread (if any) that is
moving a head through its sentinel.  `Local` says what each program counter
knows, and `Rely u` is what thread `u` may count on while the others run.

The reading of the ghost value:

* `pk`, `ck` are the tokens of `producer.index` and `consumer.index`;
* `pown = some t` exactly while `t` is inside `advance_producer`, in which case
  the index is the sentinel of block `pk`; likewise `cown` for `advance_consumer`;
* `fown = some t` exactly while `t` holds the freelist's busy token;
* `vstat k v` is `opened` until the last slot of the virtual block is completed,
  then `full t` until `t` has counted it in `consumed_vblocks`, then `counted`.
-/
import Ubq.V8.Index
import Ubq.Log

namespace V8

/-! ## Ghost state -/

/-- The state of a vblock: still read, read to the end, counted in its block. -/
inductive VStat
  | opened
  | full (t : Tid)
  | counted
  deriving DecidableEq

/-- The vblock is counted. -/
def VStat.isCounted : VStat → Bool
  | counted => true
  | _ => false

@[simp] theorem VStat.isCounted_iff {x : VStat} : x.isCounted = true ↔ x = .counted := by
  cases x <;> simp [VStat.isCounted]

/-- The ledger, the owners, and who is inside which boundary. -/
structure Ghost (T : Type*) where
  L : Ledger Tid T
  owner : Addr → Own Tid
  vstat : ℕ → ℕ → VStat
  pk : ℕ
  ck : ℕ
  pown : Option Tid
  cown : Option Tid
  fown : Option Tid
  cache : List Addr

section Inv

variable {T : Type*}

/-- A block fit for (re)use: all counters are zero. -/
def Block.Clean (b : Block T) : Prop := b.consumedVblocks = 0 ∧ ∀ v, b.vblock v = ⟨0, 0⟩

/-- The links of the blocks, as a map. -/
def Shared.next (s : Shared T) : Addr → Option Addr := fun a => (s.heap a).next

/-- The history of reservations, claims and deliveries. -/
def Shared.log (s : Shared T) : Log Tid T := ⟨s.reservations, s.claims, s.delivered⟩

/-- All reserved values, in the order of their positions. -/
def Shared.sent (s : Shared T) : List T := (s.reservations.map (fun e => e.2.2)).flatten

/-- The number of positions claimed so far. -/
def Shared.claimedLen (s : Shared T) : ℕ := (s.claims.map (fun e => e.2.2)).sum

/-- The last reservation of thread `t`. -/
def Shared.lastResv (s : Shared T) (t : Tid) : Option (Tid × ℕ × List T) :=
  (s.reservations.filter (fun e => e.1 = t)).getLast?

/-- What the block living under token `k` contains. -/
structure Content (cfg : Config) (L : Ledger Tid T) (vstat : ℕ → ℕ → VStat) (k : ℕ)
    (b : Block T) : Prop where
  produced : ∀ v, v < cfg.nv → (b.vblock v).produced
    = tally (fun p => (L.prod p).isPublished) (cfg.pos k v 0) cfg.ns
  consumed : ∀ v, v < cfg.nv → (b.vblock v).consumed
    = tally (fun p => (L.cons p).isDone) (cfg.pos k v 0) cfg.ns
  vblocks : b.consumedVblocks = tally (fun v => (vstat k v).isCounted) 0 cfg.nv
  slots : ∀ v o x, v < cfg.nv → o < cfg.ns → L.Stored (cfg.pos k v o) x →
    b.slots v o = some x

variable (cfg : Config) (t : Tid) (s : Shared T) (g : Ghost T)

/-- The producer head, unlocked or inside `advance_producer`. -/
def ProdHead : Prop :=
  match g.pown with
  | none => ∃ off f, off < cfg.cap ∧ f < 2 ∧ s.producerIndex = cfg.word g.pk off f ∧
      g.L.ppos = g.pk * cfg.cap + off ∧ s.producerBlock = s.linked[g.pk]? ∧
      (f = 1 → g.pk + 1 < s.linked.length)
  | some _ => ∃ f, f < 2 ∧ s.producerIndex = cfg.word g.pk cfg.cap f ∧
      g.pk * cfg.cap + cfg.cap ≤ g.L.ppos

/-- The consumer head, unlocked or inside `advance_consumer`. -/
def ConsHead : Prop :=
  match g.cown with
  | none => ∃ off f, off < cfg.cap ∧ f < 2 ∧ s.consumerIndex = cfg.word g.ck off f ∧
      g.L.cpos = g.ck * cfg.cap + off ∧ s.consumerBlock = s.linked[g.ck]? ∧
      (f = 1 → g.ck < g.pk)
  | some _ => ∃ f, f < 2 ∧ s.consumerIndex = cfg.word g.ck cfg.cap f ∧
      g.L.cpos = g.ck * cfg.cap + cfg.cap

/-- The history variables against the ledger. -/
structure History : Prop where
  log : s.log.Agrees g.L
  resv_cover : ∀ p x, (g.L.prod p).value? = some x →
    ∃ e ∈ s.reservations, e.2.1 ≤ p ∧ e.2.2[p - e.2.1]? = some x
  claim_owner : ∀ p u, (g.L.cons p = .claimed u ∨ g.L.cons p = .taken u) →
    ∃ e ∈ s.claims, e.1 = u ∧ e.2.1 ≤ p ∧ p < e.2.1 + e.2.2
  copied_val : ∀ e ∈ s.copied, (g.L.prod e.1).value? = some e.2
  copied_mem : ∀ p x, g.L.Stored p x → (p, x) ∈ s.copied
  deliv_claim : ∀ e ∈ s.delivered,
    ∃ c ∈ s.claims, c.1 = e.1 ∧ c.2.1 ≤ e.2.1 ∧ e.2.1 < c.2.1 + c.2.2
  recyc_nodup : s.recycled.Nodup
  recyc_iff : ∀ k, k ∈ s.recycled ↔ ∀ v, v < cfg.nv → g.vstat k v = .counted
  trace_write : ∀ e ∈ s.trace, ∀ src, e.2.1 = .writeFrom src → e.2.2 = .left [] ∧
    (src = [] ∨ ∃ a, (e.1, a, src) ∈ s.reservations ∧ g.L.Sent a src)
  trace_read : ∀ e ∈ s.trace, ∀ cap, e.2.1 = .readInto cap →
    ∃ vs b, e.2.2 = .out vs ∧ vs.length ≤ cap ∧ s.log.Took e.1 b vs

/-- The shared part of the invariant. -/
structure Inv : Prop where
  ledger : g.L.WF
  cpos_le : g.L.cpos ≤ g.L.ppos
  chain : ChainWF s.linked g.owner s.next
  live : ∀ k a, s.linked[k]? = some a →
    g.owner a = .chain k ∨ ∀ v, v < cfg.nv → g.vstat k v = .counted
  freed : ∀ a, s.allocated a = false → g.owner a = .free
  used : ∀ a, s.allocated a = true → g.owner a ≠ .free
  bounded : ∃ n : ℕ, ∀ a : ℕ, n ≤ a → s.allocated a = false
  content : ∀ a k, g.owner a = .chain k → Content cfg g.L g.vstat k (s.heap a)
  finished : ∀ k v o, v < cfg.nv → o < cfg.ns → g.vstat k v ≠ .opened →
    g.L.cons (cfg.pos k v o) = .done
  unfinished : ∀ k v, v < cfg.nv → g.vstat k v = .opened →
    ∃ o, o < cfg.ns ∧ g.L.cons (cfg.pos k v o) ≠ .done
  unretired : ∀ a k, g.owner a = .chain k → ∃ v, v < cfg.nv ∧ g.vstat k v ≠ .counted
  cache_path : ∀ p, s.freelist = .ptr p → LinkPath s.next p g.cache none
  cache_nodup : g.cache.Nodup
  cache_mem : ∀ a, g.owner a = .pooled ↔ a ∈ g.cache
  cache_clean : ∀ a ∈ g.cache, (s.heap a).Clean
  busy_iff : s.freelist = .busy ↔ g.fown ≠ none
  busy_cache : g.fown ≠ none → g.cache = []
  pk_lt : g.pk < s.linked.length
  pblock : s.producerBlock ≠ none
  phead : ProdHead cfg s g
  ck_le : g.ck ≤ g.pk
  cpos_pk : g.L.cpos ≤ g.pk * cfg.cap + cfg.cap
  cblock : ∃ j, g.ck ≤ j ∧ j < s.linked.length ∧ s.consumerBlock = s.linked[j]?
  chead : ConsHead cfg s g
  hist : History cfg s g

/-! ## What a program counter knows -/

/-- The private blocks `l` of thread `t`: distinct, owned and clean. -/
def Owned (l : List Addr) : Prop :=
  l.Nodup ∧ ∀ a ∈ l, g.owner a = .held t ∧ (s.heap a).Clean

/-- Thread `t` holds no block outside `l`. -/
def Keeps (l : List Addr) : Prop := ∀ a, g.owner a = .held t → a ∈ l

/-- `l` is linked front to back and ends in null. -/
def Linked (l : List Addr) : Prop := LinkPath s.next l.head? l none

/-- A pair `(index, block)` read from the producer head, index first. -/
def PSnap (index : ℕ) (block : Option Addr) : Prop :=
  index ≤ s.producerIndex ∧ block ≠ none ∧
    (s.producerIndex = index → g.pown = none → block = s.linked[g.pk]?)

/-- A pair `(index, block)` read from the consumer head, index first. -/
def CSnap (index : ℕ) (block : Option Addr) : Prop :=
  index ≤ s.consumerIndex ∧ block ≠ none ∧
    (s.consumerIndex = index → g.cown = none → block = s.linked[g.ck]?)

/-- The index is not a sentinel. -/
def OnSlot (index : ℕ) : Prop := index / 2 % cfg.stride < cfg.cap

/-- `n` private blocks, the current block and the successor the flag promises
hold more than `len` slots past the offset of `index`. -/
def Enough (index n len : ℕ) : Prop :=
  len + index / 2 % cfg.stride < cfg.cap * (n + index % 2 + 1)

/-- `(block, v, o)` is slot `o` of virtual block `v` of block `k`. -/
def At (k : ℕ) (block : Option Addr) (v o : ℕ) : Prop :=
  block = s.linked[k]? ∧ k < s.linked.length ∧ v < cfg.nv ∧ o < cfg.ns

/-- `t` is writing `src`, reserved from position `a` on; the first `moved` values
are published and nothing else is pending. -/
structure Job (src : List T) (a moved : ℕ) : Prop where
  resv : s.lastResv t = some (t, a, src)
  sent : g.L.Sent a (src.take moved)
  pending : g.L.Pending t (a + moved) (src.length - moved)

/-- The copy loop of `write_from`, at the start of a segment. -/
def Writing (w : Write T) : Prop :=
  w.moved ≤ w.src.length ∧ ∃ a, Job t s g w.src a w.moved ∧ (w.moved < w.src.length →
    ∃ k, At cfg s k w.block w.vblock w.offset ∧ cfg.pos k w.vblock w.offset = a + w.moved ∧
      g.L.Owes t (cfg.pos k w.vblock w.offset) (w.src.drop w.moved) ∧
      cfg.pos k w.vblock w.offset + (w.src.length - w.moved) ≤ s.linked.length * cfg.cap)

/-- Inside a segment, `i` of whose slots are filled. -/
def Filling (w : Write T) (next : Option Addr) (i : ℕ) : Prop :=
  w.moved < w.src.length ∧ i ≤ w.count cfg ∧ ∃ k, At cfg s k w.block w.vblock w.offset ∧
    (∃ a, Job t s g w.src a w.moved ∧ cfg.pos k w.vblock w.offset = a + w.moved) ∧
    (∀ j x, j < i → w.src[w.moved + j]? = some x →
      g.L.prod (cfg.pos k w.vblock w.offset + j) = .copied t x) ∧
    (∀ j x, i ≤ j → w.src[w.moved + j]? = some x →
      g.L.prod (cfg.pos k w.vblock w.offset + j) = .reserved t x) ∧
    cfg.pos k w.vblock w.offset + (w.src.length - w.moved) ≤ s.linked.length * cfg.cap ∧
    (w.vblock + 1 = cfg.nv → w.moved + w.count cfg < w.src.length → next = s.linked[k + 1]?)

/-- Inside `advance_producer`, before the private blocks are linked. -/
def Linking (w : Write T) (token : ℕ) (blocks : List Addr) : Prop :=
  token = g.pk ∧ At cfg s g.pk w.block w.vblock w.offset ∧ w.moved = 0 ∧ w.blocks = [] ∧
    w.src ≠ [] ∧ Job t s g w.src (cfg.pos g.pk w.vblock w.offset) 0 ∧
    g.L.Owes t (cfg.pos g.pk w.vblock w.offset) w.src ∧
    cfg.pos g.pk w.vblock w.offset + w.src.length = g.L.ppos ∧
    g.L.ppos < (s.linked.length + blocks.length) * cfg.cap ∧
    Owned t s g blocks ∧ Linked s blocks

/-- Inside `advance_producer`, walking to the block of the new position. -/
def Walking (a : Advance T) : Prop :=
  a.token = g.pk ∧ At cfg s g.pk a.w.block a.w.vblock a.w.offset ∧ a.w.moved = 0 ∧
    a.w.blocks = [] ∧ a.w.src ≠ [] ∧
    Job t s g a.w.src (cfg.pos g.pk a.w.vblock a.w.offset) 0 ∧
    g.L.Owes t (cfg.pos g.pk a.w.vblock a.w.offset) a.w.src ∧
    cfg.pos g.pk a.w.vblock a.w.offset + a.w.src.length = g.L.ppos ∧
    g.L.ppos < s.linked.length * cfg.cap ∧
    a.blk = s.linked[g.pk + a.depth]? ∧ a.off < cfg.cap ∧
    (g.pk + a.depth) * cfg.cap + (a.off + a.rem) = g.L.ppos

/-- Where `FreeList::acquire` returns to, with `n` blocks still to come. -/
def AcqOk : AcqRet T → List Addr → ℕ → Prop
  | .first src index block, acc, _ =>
    src ≠ [] ∧ PSnap s g index block ∧ Owned t s g acc ∧ Linked s acc
  | .root _ _ _, _, _ => False
  | .more src index block blocks, acc, n =>
    src ≠ [] ∧ PSnap s g index block ∧ OnSlot cfg index ∧
      Enough cfg index (blocks.length + acc.length + n) src.length ∧
      Owned t s g (acc ++ blocks) ∧ Linked s acc ∧ Linked s blocks

/-- The private blocks a caller of `take` already holds. -/
def TakeRet.blocks : TakeRet T → List Addr
  | .acquire (.more _ _ _ blocks) acc _ => acc ++ blocks
  | .acquire _ acc _ => acc
  | .flush => []

/-- What `take` is called for. -/
def TakeOk : TakeRet T → Prop
  | .acquire ret acc n => 0 < n ∧ AcqOk cfg t s g ret acc n
  | .flush => True

/-- `take` holds the detached chain `taken ++ rem` and stands at `rest`. -/
def Detached (ret : TakeRet T) (taken : List Addr) (rest : Option Addr) : Prop :=
  ∃ rem, rest = rem.head? ∧ taken ++ rem ≠ [] ∧ Owned t s g (taken ++ rem ++ ret.blocks) ∧
    Keeps t g (taken ++ rem ++ ret.blocks) ∧ Linked s (taken ++ rem) ∧
    ret.limit.all (taken.length ≤ ·)

/-- The proposed consumer index. -/
def NewIndex (cap index newIndex : ℕ) : Prop :=
  ∃ off' f, f < 2 ∧ newIndex = cfg.word (index / 2 / cfg.stride) off' f ∧
    index / 2 % cfg.stride < off' ∧ off' ≤ cfg.cap ∧
    off' ≤ index / 2 % cfg.stride + cap ∧
    ((index % 2 = 1 ∧ f = 1) ∨
      (index % 2 = 0 ∧ index / 2 / cfg.stride * cfg.cap + off' ≤ g.L.ppos ∧
        (f = 1 → index / 2 / cfg.stride < g.pk)))

/-- The copy loop of `read_into`, at the start of a segment. -/
def Reading (r : Read T) : Prop :=
  r.out.length = r.written ∧ r.written ≤ r.len ∧ r.len ≤ r.cap ∧ 0 < r.len ∧
    ∃ b, s.log.Took t b r.out ∧ g.L.Covers t (b + r.written) (r.len - r.written) ∧
      (r.written < r.len → At cfg s r.token r.block r.vblock r.offset ∧
        cfg.pos r.token r.vblock r.offset = b + r.written ∧
        g.L.Holds t (cfg.pos r.token r.vblock r.offset) (r.len - r.written))

/-- Inside a segment that is published, `i` of whose values are moved out. -/
def Draining (r : Read T) (i : ℕ) : Prop :=
  r.out.length = r.written + i ∧ r.written < r.len ∧ r.len ≤ r.cap ∧ i ≤ r.count cfg ∧
    At cfg s r.token r.block r.vblock r.offset ∧
    (∃ b, s.log.Took t b r.out ∧ cfg.pos r.token r.vblock r.offset = b + r.written) ∧
    g.L.Covers t (cfg.pos r.token r.vblock r.offset) (r.len - r.written) ∧
    (∀ j, j < i → g.L.cons (cfg.pos r.token r.vblock r.offset + j) = .taken t) ∧
    (∀ j, i ≤ j → j < r.len - r.written →
      g.L.cons (cfg.pos r.token r.vblock r.offset + j) = .claimed t) ∧
    (∀ j, j < r.count cfg → ∃ x, g.L.prod (cfg.pos r.token r.vblock r.offset + j) = .published x)

/-- The successor read before the segment was completed. -/
def Next (r : Read T) (next : Option Addr) : Prop :=
  r.vblock + 1 = cfg.nv → r.written + r.count cfg < r.len → next = s.linked[r.token + 1]?

/-- Inside `advance_consumer`: the rest of block `token` is claimed. -/
def Locked (r : Read T) : Prop :=
  g.ck = r.token ∧ r.out = [] ∧ r.written = 0 ∧ r.len ≤ r.cap ∧
    At cfg s r.token r.block r.vblock r.offset ∧
    g.L.Holds t (cfg.pos r.token r.vblock r.offset)
      (cfg.cap - (r.vblock * cfg.ns + r.offset)) ∧
    g.L.Covers t (cfg.pos r.token r.vblock r.offset) (cfg.cap - (r.vblock * cfg.ns + r.offset))

/-- The walk of `advance_consumer` stands at offset `o` of block `n`. -/
def Scanning (r : Read T) (newIndex pidx : ℕ) (blk : Option Addr) : Prop :=
  ∃ n o pt po, newIndex / 2 = cfg.stride * n + o ∧ (o = 0 ∨ o = cfg.cap) ∧
    pidx = cfg.stride * pt + po ∧ po < cfg.cap ∧ pt ≤ g.pk ∧ pt * cfg.cap + po ≤ g.L.ppos ∧
    blk = s.linked[n]? ∧ (n < pt ∨ (n = pt ∧ o = 0)) ∧ r.token < pt ∧
    r.token * cfg.cap + cfg.cap ≤ n * cfg.cap + o ∧
    n * cfg.cap + o = cfg.pos r.token r.vblock r.offset + r.len

/-- `advance_consumer` has found the new position. -/
def Settling (r : Read T) (newIndex : ℕ) (blk : Option Addr) : Prop :=
  ∃ n o f, newIndex = cfg.word n o f ∧ o < cfg.cap ∧ f < 2 ∧ (f = 1 → n < g.pk) ∧ n ≤ g.pk ∧
    blk = s.linked[n]? ∧ r.token < n ∧ n * cfg.cap + o ≤ g.L.ppos ∧
    n * cfg.cap + o = cfg.pos r.token r.vblock r.offset + r.len

/-- A completed block in the hands of `FreeList::recycle`. -/
def Recycling (r : Read T) (next : Option Addr) (b : Addr) : Prop :=
  g.owner b = .held t ∧ Reading cfg t s g (r.advance cfg next)

/-- The thread is inside `advance_producer`. -/
def Pc.holdsP : Pc T → Bool
  | .apFind .. | .apLink .. | .apWalk .. | .apHas .. | .apBlock .. | .apIndex .. => true
  | _ => false

/-- The thread is inside `advance_consumer`. -/
def Pc.holdsC : Pc T → Bool
  | .acLoad .. | .acLoop .. | .acNext .. | .acBlock .. | .acIndex .. => true
  | _ => false

/-- The thread holds the free list. -/
def Pc.holdsF : Pc T → Bool
  | .tWalk .. => true
  | _ => false

/-- Between the reservation of `write_from` and the end of its copy loop. -/
def Pc.writing : Pc T → Bool
  | .apFind .. | .apLink .. | .apWalk .. | .apHas .. | .apBlock .. | .apIndex .. => true
  | .wSeg .. | .wNext .. | .wCopy .. | .wPublish .. => true
  | _ => false

/-- Between the claim of `read_into` and the end of its copy loop. -/
def Pc.fetching : Pc T → Bool
  | .rSeg .. | .rProduced .. | .rPending .. | .rCopy .. | .rNext .. | .rConsume .. => true
  | .rVblocks .. | .acLoad .. | .acLoop .. | .acNext .. | .acBlock .. | .acIndex .. => true
  | .cReset .. | .cLoad .. | .cLink .. | .cPush .. | .cFree .. => true
  | _ => false

/-- The private blocks in the locals of a thread: those provisioned by
`FreeList::acquire`, those severed by `FreeList::take` and the block in the
hands of `FreeList::recycle`. -/
def Pc.blocks : Pc T → List Addr
  | .wLoop _ _ _ blocks | .wReIndex _ blocks | .wReBlock _ _ blocks | .wCas _ _ _ blocks => blocks
  | .wRoot _ _ new blocks | .wRootStore _ _ new blocks => new ++ blocks
  | .wSeg w | .wNext w | .wCopy w _ _ | .wPublish w _ | .wDrop w => w.blocks
  | .apFind _ _ _ blocks | .apLink _ _ _ blocks => blocks
  | .tLoad ret | .tCas ret _ => ret.blocks
  | .tWalk ret taken _ => taken ++ ret.blocks
  | .aAlloc ret acc remaining => (TakeRet.acquire ret acc remaining).blocks
  | .fDrop blocks _ => blocks
  | .cReset _ _ b | .cLoad _ _ b | .cLink _ _ b _ | .cPush _ _ b _ | .cFree _ _ b => [b]
  | _ => []

/-- The virtual block that is completed but not counted yet. -/
def Pc.counts : Pc T → Option (ℕ × ℕ)
  | .rVblocks r _ => some (r.token, r.vblock)
  | _ => none

/-- The assertion at each program counter. -/
def At.Pc : Pc T → Prop
  | .idle => True
  | .fault => False
  | .wIndex src => src ≠ []
  | .wBlock src index => src ≠ [] ∧ index ≤ s.producerIndex
  | .wLoop src index block blocks =>
    src ≠ [] ∧ PSnap s g index block ∧ Owned t s g blocks ∧ Linked s blocks
  | .wReIndex src blocks => src ≠ [] ∧ Owned t s g blocks ∧ Linked s blocks
  | .wReBlock src index blocks =>
    src ≠ [] ∧ index ≤ s.producerIndex ∧ Owned t s g blocks ∧ Linked s blocks
  | .wRoot .. => False
  | .wRootStore .. => False
  | .wCas src index block blocks =>
    src ≠ [] ∧ PSnap s g index block ∧ OnSlot cfg index ∧
      Enough cfg index blocks.length src.length ∧ Owned t s g blocks ∧ Linked s blocks
  | .wSeg w => Owned t s g w.blocks ∧ Linked s w.blocks ∧ Writing cfg t s g w
  | .wNext w => Owned t s g w.blocks ∧ Linked s w.blocks ∧ Writing cfg t s g w ∧
      w.moved < w.src.length
  | .wCopy w next i => Owned t s g w.blocks ∧ Linked s w.blocks ∧ Filling cfg t s g w next i
  | .wPublish w next =>
    Owned t s g w.blocks ∧ Linked s w.blocks ∧ Filling cfg t s g w next (w.count cfg)
  | .wDrop w => Owned t s g w.blocks ∧ w.moved = w.src.length ∧
      ∃ a, s.lastResv t = some (t, a, w.src) ∧ g.L.Sent a w.src
  | .apFind w token curr blocks => Linking cfg t s g w token blocks ∧
      ∃ j, g.pk ≤ j ∧ j < s.linked.length ∧ curr = s.linked[j]?
  | .apLink w token curr blocks => Linking cfg t s g w token blocks ∧
      s.linked[s.linked.length - 1]? = some curr
  | .apWalk a => Walking cfg t s g a ∧ (a.depth = 0 → cfg.cap ≤ a.off + a.rem)
  | .apHas a => Walking cfg t s g a ∧ 0 < a.depth ∧ a.off + a.rem < cfg.cap
  | .apBlock a hasNext => Walking cfg t s g a ∧ 0 < a.depth ∧ a.off + a.rem < cfg.cap ∧
      hasNext < 2 ∧ (hasNext = 1 → g.pk + a.depth + 1 < s.linked.length)
  | .apIndex a hasNext => Walking cfg t s g a ∧ 0 < a.depth ∧ a.off + a.rem < cfg.cap ∧
      hasNext < 2 ∧ (hasNext = 1 → g.pk + a.depth + 1 < s.linked.length) ∧
      s.producerBlock = a.blk
  | .tLoad ret => TakeOk cfg t s g ret
  | .tCas ret _ => TakeOk cfg t s g ret
  | .tWalk ret taken rest => TakeOk cfg t s g ret ∧ Detached t s g ret taken rest
  | .aAlloc ret acc n => 0 < n ∧ AcqOk cfg t s g ret acc n
  | .fDrop blocks _ => Owned t s g blocks
  | .rIndex cap => 0 < cap
  | .rBlock cap index => 0 < cap ∧ index ≤ s.consumerIndex
  | .rLoop cap index block => 0 < cap ∧ CSnap s g index block
  | .rPidx cap index block => 0 < cap ∧ CSnap s g index block ∧ OnSlot cfg index ∧ index % 2 = 0
  | .rCas cap index block newIndex => 0 < cap ∧ CSnap s g index block ∧ OnSlot cfg index ∧
      NewIndex cfg g cap index newIndex
  | .rSeg r => Reading cfg t s g r
  | .rProduced r => Reading cfg t s g r ∧ r.written < r.len
  | .rPending r produced => Reading cfg t s g r ∧ r.written < r.len ∧
      produced ≤ tally (fun p => (g.L.prod p).isPublished) (cfg.pos r.token r.vblock 0) cfg.ns
  | .rCopy r i => Draining cfg t s g r i
  | .rNext r => Draining cfg t s g r (r.count cfg)
  | .rConsume r next => Draining cfg t s g r (r.count cfg) ∧ Next cfg s r next
  | .rVblocks r next => At cfg s r.token r.block r.vblock r.offset ∧
      g.vstat r.token r.vblock = .full t ∧ Reading cfg t s g (r.advance cfg next)
  | .acLoad r newIndex => Locked cfg t s g r ∧ newIndex / 2 = cfg.stride * r.token + cfg.cap ∧
      r.vblock * cfg.ns + r.offset + r.len = cfg.cap
  | .acLoop r newIndex pidx blk => Locked cfg t s g r ∧ Scanning cfg s g r newIndex pidx blk
  | .acNext r newIndex pidx blk => Locked cfg t s g r ∧ Scanning cfg s g r newIndex pidx blk ∧
      isSentinel cfg (newIndex / 2)
  | .acBlock r newIndex blk => Locked cfg t s g r ∧ Settling cfg s g r newIndex blk
  | .acIndex r newIndex => Locked cfg t s g r ∧ Settling cfg s g r newIndex s.consumerBlock
  | .cReset r next b => Recycling cfg t s g r next b ∧
      ∀ v, v < cfg.nv → (s.heap b).vblock v = ⟨cfg.ns, cfg.ns⟩
  | .cLoad r next b => Recycling cfg t s g r next b ∧ (s.heap b).Clean
  | .cLink r next b _ => Recycling cfg t s g r next b ∧ (s.heap b).Clean
  | .cPush r next b head =>
    Recycling cfg t s g r next b ∧ (s.heap b).Clean ∧ (s.heap b).next = head
  | .cFree r next b => Recycling cfg t s g r next b ∧ (s.heap b).Clean

/-- The assertion of thread `t`, with the locks its program counter stands for. -/
structure Local (pc : Pc T) : Prop where
  holdsP : g.pown = some t ↔ pc.holdsP = true
  holdsC : g.cown = some t ↔ pc.holdsC = true
  holdsF : g.fown = some t ↔ pc.holdsF = true
  pending : pc.writing = false → g.L.Pending t 0 0
  covers : pc.fetching = false → g.L.Covers t 0 0
  keeps : pc.holdsF = false → Keeps t g pc.blocks
  counts : ∀ k v, g.vstat k v = .full t → pc.counts = some (k, v)
  here : At.Pc cfg t s g pc

/-- What thread `u` relies on. -/
structure Rely (u : Tid) (s : Shared T) (g : Ghost T) (s' : Shared T) (g' : Ghost T) : Prop where
  ledger : Ledger.Frame u g.L g'.L
  covers : ∀ a n, g.L.Covers u a n → g'.L.Covers u a n
  linked : s.linked <+: s'.linked
  resv : s'.lastResv u = s.lastResv u
  deliv : ∀ e ∈ s.delivered, e ∈ s'.delivered
  held : ∀ a, g.owner a = .held u → g'.owner a = .held u ∧ s'.heap a = s.heap a
  keeps : ∀ a, g'.owner a = .held u → g.owner a = .held u
  vstat : ∀ k v, g'.vstat k v = .full u ↔ g.vstat k v = .full u
  pk : g.pk ≤ g'.pk
  pidx : (s'.producerIndex = s.producerIndex ∧ g'.pk = g.pk ∧ g'.pown = g.pown) ∨
    s.producerIndex < s'.producerIndex
  pown : g.pown = some u → s'.producerIndex = s.producerIndex ∧
    s'.producerBlock = s.producerBlock ∧ s'.linked = s.linked ∧ g'.L.ppos = g.L.ppos
  pown_iff : g'.pown = some u ↔ g.pown = some u
  cidx : (s'.consumerIndex = s.consumerIndex ∧ g'.ck = g.ck ∧ g'.cown = g.cown) ∨
    s.consumerIndex < s'.consumerIndex
  cown : g.cown = some u → s'.consumerIndex = s.consumerIndex ∧
    s'.consumerBlock = s.consumerBlock
  cown_iff : g'.cown = some u ↔ g.cown = some u
  fown_iff : g'.fown = some u ↔ g.fown = some u

end Inv

end V8
