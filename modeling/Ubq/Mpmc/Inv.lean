/-
# The invariant of the MPMC queue

A rely-guarantee proof outline: `Inv` relates the shared state to a ghost value,
`Local` says what each program counter knows, and `Rely u` is what thread `u`
may count on while the others run.

A head word is an address without a generation, so a snapshot of `chead` may
come from an earlier life of the block it names.  The outline is therefore for
the runs in which no consumer wins its CAS with such a snapshot (`AbaFree`): the
thread noted the token of the block when it loaded `chead`, and the block still
has that token.  What a consumer knows about `phead` is stated under the same
proviso.  In such runs the two repairs of `pop_batch` are dead, which is why
their program counters have no assertion.

The reading of the ghost value:

* `stage` follows the initialisation: no block yet, one thread between its
  stores to `phead` and `chead`, or both heads set;
* `pk`, `ck` are the tokens of the blocks of `phead` and `chead`;
* `pown = some t` exactly while `t` crosses a boundary of `push_batch`, in which
  case the index of `phead` is the block length; likewise `cown` for `pop_batch`.
-/
import Ubq.Mpmc.Machine

namespace Mpmc

/-! ## Ghost state -/

/-- Whether the queue has its first block. -/
inductive Stage
  | fresh
  | opening (t : Tid)
  | ready
  deriving DecidableEq

/-- The ledger, the owners, and who is inside a boundary. -/
structure Ghost (T : Type*) where
  L : Ledger Tid (Option T)
  owner : Addr → Own Tid
  stage : Stage
  pk : ℕ
  ck : ℕ
  pown : Option Tid
  cown : Option Tid

section Inv

variable {T : Type*}

/-- The slot contains the item. -/
def Slot.Has (x : Slot T) : Option T → Prop
  | some v => x.state = .written ∧ x.value = some v
  | none => x.state = .skip

/-- The slot holds no value that has been written but not read. -/
def Slot.Spent (x : Slot T) : Prop := x.state = .written → x.read = true

/-- A block fit for (re)use: nothing consumed, all slots blank. -/
def Block.Clean (b : Block T) : Prop := b.consumed = 0 ∧ ∀ i, (b.slots i).state = .zero

/-- No slot of the block holds an unread value. -/
def Block.Spent (cfg : Config) (b : Block T) : Prop := ∀ i, i < cfg.bl → (b.slots i).Spent

/-- The links of the blocks, as a map. -/
def Shared.next (s : Shared T) : Addr → Option Addr := fun a => (s.heap a).next

/-- What the block living under token `k` contains. -/
structure Content (cfg : Config) (L : Ledger Tid (Option T)) (k : ℕ) (b : Block T) : Prop where
  consumed : b.consumed = tally (fun p => (L.cons p).isDone) (k * cfg.bl) cfg.bl
  filled : ∀ i x, i < cfg.bl → L.prod (k * cfg.bl + i) = .published x → (b.slots i).Has x
  blank : ∀ i, i < cfg.bl → (∀ x, L.prod (k * cfg.bl + i) ≠ .published x) →
    (b.slots i).state = .zero
  spent : ∀ i, i < cfg.bl → ((∃ t, L.cons (k * cfg.bl + i) = .taken t) ∨
    L.cons (k * cfg.bl + i) = .done) → (b.slots i).Spent

/-- The block is not free. -/
def Own.inUse : Own Tid → Bool
  | .free => false
  | _ => true

/-- The run each block belongs to. -/
def Shared.runOf (s : Shared T) : Addr → Option ℕ := fun a => (s.heap a).run

/-- The pages of a run are returned together: the counter is the number of pages
still in use, and while it is positive none of them can be allocated again.  A
block was made once more often than freed exactly while it is in use. -/
structure Pages (m : Arena) (run : Addr → Option ℕ) (owner : Addr → Own Tid) : Prop where
  freed : ∀ a, m.allocated a = false → owner a = .free
  member : ∀ a r, owner a ≠ .free → run a = some r → r < m.runCount ∧ a ∈ (m.runs r).members
  whole : ∀ r, r < m.runCount → 0 < (m.runs r).remaining → (m.runs r).members.Nodup ∧
    ∀ b ∈ (m.runs r).members, m.allocated b = true ∧ run b = some r
  remaining : ∀ r, r < m.runCount → (m.runs r).remaining
    = (m.runs r).members.countP (fun b => Own.inUse (owner b) && run b == some r)
  single : ∀ a, owner a = .free → m.allocated a = true →
    ∃ r, run a = some r ∧ r < m.runCount ∧ 0 < (m.runs r).remaining ∧ a ∈ (m.runs r).members
  bounded : ∃ n : ℕ, ∀ a : ℕ, n ≤ a → m.allocated a = false
  count : ∀ a, m.made.count a = m.gone.count a + (Own.inUse (owner a)).toNat
  released_nodup : m.released.Nodup
  released_iff : ∀ r, r ∈ m.released ↔ r < m.runCount ∧ (m.runs r).remaining = 0

variable (cfg : Config) (t : Tid) (s : Shared T) (g : Ghost T)

/-- The producer head, unlocked or inside the boundary of `push_batch`. -/
def ProdHead : Prop :=
  match g.pown with
  | none => ∃ off f, off < cfg.bl ∧ s.phead = ⟨s.linked[g.pk]?, off, f⟩ ∧
      g.L.ppos = g.pk * cfg.bl + off ∧ (f = true → g.pk + 1 < s.linked.length)
  | some _ => s.phead = ⟨s.linked[g.pk]?, cfg.bl, false⟩ ∧ g.pk * cfg.bl + cfg.bl ≤ g.L.ppos

/-- The consumer head: not set yet, unlocked, or inside the boundary of `pop_batch`. -/
def ConsHead : Prop :=
  match g.stage with
  | .ready =>
    match g.cown with
    | none => ∃ off f, off < cfg.bl ∧ s.chead = ⟨s.linked[g.ck]?, off, f⟩ ∧
        g.L.cpos = g.ck * cfg.bl + off ∧ (f = true → g.ck < g.pk)
    | some _ => ∃ f, s.chead = ⟨s.linked[g.ck]?, cfg.bl, f⟩ ∧
        g.L.cpos = g.ck * cfg.bl + cfg.bl
  | _ => s.chead = Head.zero ∧ g.ck = 0 ∧ g.L.cpos = 0 ∧ g.cown = none

/-- What the history promises about a finished call. -/
def Done (t : Tid) : Op T → Res T → Prop
  | .pushBatch items, res => res = .pushed ∧ (items = [] ∨
      ∃ a, (t, a, items.map some) ∈ s.log.reservations ∧ g.L.Sent a (items.map some))
  | .popBatch size keep, res => ∃ (vs : List T) (b : ℕ), res = .popped vs.length (vs.take keep) ∧
      vs.length ≤ size ∧ s.log.Took t b (vs.map some)
  | .isEmpty, res => ∃ b, res = .answer b

/-- The shared part of the invariant. -/
structure Inv : Prop where
  ledger : g.L.WF
  present : ∀ p, (g.L.prod p).value? ≠ some none
  cpos_le : g.L.cpos ≤ g.L.ppos
  chain : ChainWF s.linked g.owner s.next
  live : ∀ k a, s.linked[k]? = some a →
    g.owner a = .chain k ∨ ∀ i, i < cfg.bl → g.L.cons (k * cfg.bl + i) = .done
  pages : Pages s.arena s.runOf g.owner
  dropped : s.dropped = []
  content : ∀ a k, g.owner a = .chain k → Content cfg g.L k (s.heap a)
  unfinished : ∀ a k, g.owner a = .chain k → (s.heap a).consumed < cfg.bl
  pool_iff : ∀ a, g.owner a = .pooled ↔ s.pool = some a
  pool_clean : ∀ a, s.pool = some a → (s.heap a).Clean ∧ (s.heap a).next = none
  fresh_iff : g.stage = .fresh ↔ s.linked = []
  fresh : g.stage = .fresh → g.pk = 0 ∧ g.L.ppos = 0 ∧ g.pown = none
  pk_lt : g.stage ≠ .fresh → g.pk < s.linked.length
  phead : ProdHead cfg s g
  ck_le : g.ck ≤ g.pk
  cpos_pk : g.L.cpos ≤ g.pk * cfg.bl + cfg.bl
  chead : ConsHead cfg s g
  log : s.log.Agrees g.L
  trace : ∀ e ∈ s.trace, Done s g e.1 e.2.1 e.2.2

/-! ## What a program counter knows -/

/-- The private blocks `l` of thread `t`: distinct, owned and clean. -/
def Owned (l : List Addr) : Prop :=
  l.Nodup ∧ ∀ a ∈ l, g.owner a = .held t ∧ (s.heap a).Clean

/-- `l` is linked front to back and ends in null. -/
def Linked (l : List Addr) : Prop := LinkPath s.next l.head? l none

/-- `block` is the block with token `k`, and `i` one of its slots. -/
def At (k : ℕ) (block : Option Addr) (i : ℕ) : Prop :=
  block = s.linked[k]? ∧ k < s.linked.length ∧ i < cfg.bl

/-- A call of `push_batch` by a caller, with the blocks it keeps ready. -/
structure PushOk (p : Push T) : Prop where
  user : ∃ items, p.ret = .user items ∧ p.items = items.map some ∧ items ≠ []
  owned : Owned t s g p.blocks
  linked : Linked s p.blocks

/-- `t` is writing `items`, reserved from position `a` on; the first `done` of
them are published and nothing else is pending. -/
structure Job (items : List (Option T)) (a done : ℕ) : Prop where
  resv : (t, a, items) ∈ s.log.reservations
  sent : g.L.Sent a (items.take done)
  pending : g.L.Pending t (a + done) (items.length - done)

/-- The boundary walk of `push_batch` stands at the block `n`. -/
structure Crossing (w : PushWalk T) (n : ℕ) : Prop where
  push : PushOk t s g w.p
  none_left : w.p.blocks = []
  owned : Owned t s g w.root
  linked : Linked s w.root
  start : At cfg s g.pk w.phead.block w.phead.index
  job : Job t s g w.p.items (g.pk * cfg.bl + w.phead.index) 0
  owes : g.L.Owes t (g.pk * cfg.bl + w.phead.index) w.p.items
  ppos : g.pk * cfg.bl + w.phead.index + w.p.items.length = g.L.ppos
  enough : g.L.ppos < (s.linked.length + w.root.length) * cfg.bl
  here : At cfg s n w.block w.index
  pk_le : g.pk ≤ n
  rest : n * cfg.bl + (w.index + w.remaining) = g.L.ppos
  first : n = g.pk → cfg.bl ≤ w.index + w.remaining

/-- The slot loop of `push_batch`, with items left: the next goes to block `k`. -/
structure Filling (f : Fill T) (a k : ℕ) : Prop where
  push : PushOk t s g f.p
  job : Job t s g f.p.items a f.done
  lt : f.done < f.p.items.length
  here : At cfg s k f.block f.index
  pos : k * cfg.bl + f.index = a + f.done
  owes : g.L.Owes t (a + f.done) (f.p.items.drop f.done)
  room : a + f.p.items.length < s.linked.length * cfg.bl

/-- The size and the slots still wanted of a `pop_batch`. -/
def PopOk (q : Pop) : Prop := 0 < q.len ∧ q.len ≤ q.size

/-- A value of `chead` as thread `t` loaded it, together with the token it noted. -/
structure Snap (chead : Head) : Prop where
  ready : g.stage = .ready
  here : At cfg s (s.seen t) chead.block chead.index
  seen_le : s.seen t ≤ g.ck
  pos_le : s.seen t * cfg.bl + chead.index ≤ g.L.cpos

/-- The head a consumer proposes.  Without the hint it was computed from `phead`,
and is good for as long as the block has not been linked again. -/
structure Proposal (q : Pop) (chead new : Head) : Prop where
  block : new.block = chead.block
  index : new.index = min cfg.bl (chead.index + q.len)
  hint : chead.hasNext = true → new.hasNext = true
  ahead : chead.hasNext = false →
    (∀ j, s.seen t < j → s.linked[j]? ≠ chead.block) →
      s.seen t * cfg.bl + new.index ≤ g.L.ppos ∧ (new.hasNext = true → s.seen t < g.pk)

/-- Inside the boundary of `pop_batch`: the rest of the block is claimed. -/
structure Locked (q : Pop) (chead : Head) : Prop where
  pop : PopOk q
  ready : g.stage = .ready
  here : At cfg s g.ck chead.block chead.index
  holds : g.L.Holds t (g.ck * cfg.bl + chead.index) (cfg.bl - chead.index)
  covers : g.L.Covers t (g.ck * cfg.bl + chead.index) (cfg.bl - chead.index)
  full : cfg.bl ≤ chead.index + q.len

/-- The boundary walk of `pop_batch` stands at the block `n`, and the `phead` it
has read was in the block `m`. -/
structure Scanning (w : PopWalk) (n m : ℕ) : Prop where
  locked : Locked cfg t s g w.q w.chead
  here : At cfg s n w.block w.index
  ck_le : g.ck ≤ n
  le : n ≤ m
  le_pk : m ≤ g.pk
  block : w.phead.block = s.linked[m]?
  index_le : w.phead.index ≤ cfg.bl
  le_ppos : m * cfg.bl + w.phead.index ≤ g.L.ppos
  past : g.ck * cfg.bl + cfg.bl ≤ m * cfg.bl + w.phead.index
  rest : n * cfg.bl + (w.index + w.remaining) = g.ck * cfg.bl + (w.chead.index + w.q.len)
  first : n = g.ck → w.index = w.chead.index
  later : g.ck < n → w.index = 0

/-- The values an iterator has yielded so far, taken from its first position on. -/
structure IterOk (it : Iter T) : Prop where
  took : s.log.Took t it.base (it.out.map some)
  count : it.out.length + it.len = it.reserved
  pos : 0 < it.reserved
  le : it.reserved ≤ it.size

/-- An iterator between two slots of block `k`. -/
structure Reading (it : Iter T) (k : ℕ) : Prop where
  iter : IterOk t s it
  left : 0 < it.len
  here : At cfg s k it.block it.index
  pos : k * cfg.bl + it.index = it.base + it.out.length
  pending_le : it.pending ≤ it.index
  taken : g.L.Taken t (k * cfg.bl + (it.index - it.pending)) it.pending
  holds : g.L.Holds t (k * cfg.bl + it.index) it.len
  covers : g.L.Covers t (k * cfg.bl + (it.index - it.pending)) (it.pending + it.len)

/-- An iterator with a segment of block `k`, up to slot `e`, to be counted. -/
structure Counting (it : Iter T) (k e : ℕ) : Prop where
  iter : IterOk t s it
  lt : k < s.linked.length
  pos : k * cfg.bl + e = it.base + it.out.length
  le : e ≤ cfg.bl
  pending_pos : 0 < it.pending
  pending_le : it.pending ≤ e
  taken : g.L.Taken t (k * cfg.bl + (e - it.pending)) it.pending
  covers : g.L.Covers t (k * cfg.bl + (e - it.pending)) (it.pending + it.len)
  more : 0 < it.len → e = cfg.bl ∧ g.L.Holds t (k * cfg.bl + cfg.bl) it.len

/-- An iterator between two segments. -/
def Iterating (it : Iter T) : Prop :=
  it.pending = 0 ∧ IterOk t s it ∧ g.L.Covers t (it.base + it.out.length) it.len ∧
    (0 < it.len → ∃ k, Reading cfg t s g it k)

/-- The assertion at each program counter. -/
def At.Pc : Pc T → Prop
  | .idle => True
  | .fault => False
  | .pLoad p => PushOk t s g p ∧ p.blocks = []
  | .pInitSwap p => PushOk t s g p ∧ p.blocks = []
  | .pInitAlloc p => PushOk t s g p ∧ p.blocks = []
  | .pInitCas p root => PushOk t s g p ∧ p.blocks = [] ∧ Owned t s g [root] ∧ Linked s [root]
  | .pInitStore p root => PushOk t s g p ∧ p.blocks = [] ∧ s.linked[0]? = some root
  | .pReload p => PushOk t s g p ∧ g.stage ≠ .fresh
  | .pSwap p phead need => PushOk t s g p ∧ g.stage ≠ .fresh ∧ phead.index < cfg.bl ∧
      need = pushNeed cfg p phead
  | .pAlloc p phead need => PushOk t s g p ∧ g.stage ≠ .fresh ∧ phead.index < cfg.bl ∧
      need = pushNeed cfg p phead ∧ p.blocks.length * cfg.bl < need
  | .pCas p phead => PushOk t s g p ∧ g.stage ≠ .fresh ∧ phead.index < cfg.bl ∧
      pushNeed cfg p phead ≤ p.blocks.length * cfg.bl
  | .pNext w => ∃ n, Crossing cfg t s g w n
  | .pLink w => ∃ n, Crossing cfg t s g w n ∧ n + 1 = s.linked.length
  | .pStore w next => ∃ n, Crossing cfg t s g w n ∧ next = s.linked[n + 1]? ∧
      w.index + w.remaining < cfg.bl
  | .pWait f => (∃ a k, Filling cfg t s g f a k) ∧ f.index + 1 = cfg.bl
  | .pWrite f next => ∃ a k, Filling cfg t s g f a k ∧
      (f.index + 1 = cfg.bl → next = s.linked[k + 1]?)
  | .pDrop p => PushOk t s g p ∧
      ∃ a, (t, a, p.items) ∈ s.log.reservations ∧ g.L.Sent a p.items
  | .cLoad0 size _ => 0 < size
  | .cReload q => PopOk q ∧ g.stage = .ready
  | .cPhead q chead => PopOk q ∧ Snap cfg t s g chead ∧ chead.hasNext = false
  | .cCas q chead new => PopOk q ∧ Snap cfg t s g chead ∧ Proposal cfg t s g q chead new
  | .cPost q chead new => PopOk q ∧ new.index = min cfg.bl (chead.index + q.len) ∧
      ∃ k, At cfg s k chead.block chead.index ∧ k * cfg.bl + new.index ≤ g.L.ppos ∧
        g.L.Holds t (k * cfg.bl + chead.index) (new.index - chead.index) ∧
        g.L.Covers t (k * cfg.bl + chead.index) (new.index - chead.index) ∧
        (new.index = cfg.bl → g.ck = k ∧ g.stage = .ready)
  | .cRevert .. => False
  | .cWalk q chead => Locked cfg t s g q chead
  | .cNext w => ∃ n m, Scanning cfg t s g w n m
  | .cSpin w => ∃ n, Scanning cfg t s g w n n
  | .cNext2 w => ∃ n m, Scanning cfg t s g w n m ∧ n < m
  | .cStoreP w => ∃ n, Scanning cfg t s g w n n ∧ w.phead.index < cfg.bl
  | .cStoreN w => ∃ n m, Scanning cfg t s g w n m ∧ n < m ∧ w.index + w.remaining < cfg.bl
  | .iRead it => ∃ k, Reading cfg t s g it k
  | .iNext it => ∃ k, Counting cfg t s g it k cfg.bl ∧ it.block = s.linked[k]?
  | .iConsume it a => ∃ k e, Counting cfg t s g it k e ∧ s.linked[k]? = some a ∧
      (0 < it.len → it.block = s.linked[k + 1]? ∧ it.index = 0)
  | .iReset it a => g.owner a = .held t ∧ (s.heap a).Spent cfg ∧ Iterating cfg t s g it
  | .iPool it a => g.owner a = .held t ∧ (s.heap a).Clean ∧ (s.heap a).next = none ∧
      Iterating cfg t s g it
  | .iFree it a => g.owner a = .held t ∧ (s.heap a).Spent cfg ∧ (s.heap a).drops cfg = [] ∧
      Iterating cfg t s g it
  | .eLoad => True
  | .eSpin _ => g.stage ≠ .fresh

/-- Between the two stores that initialise the queue. -/
def Pc.holdsI : Pc T → Bool
  | .pInitStore .. => true
  | _ => false

/-- The thread is inside the boundary of `push_batch`. -/
def Pc.holdsP : Pc T → Bool
  | .pNext .. | .pLink .. | .pStore .. => true
  | _ => false

/-- The thread is inside the boundary of `pop_batch`. -/
def Pc.holdsC : Pc T → Bool
  | .cPost _ _ new => new.index == cfg.bl
  | .cWalk .. | .cNext .. | .cSpin .. | .cNext2 .. | .cStoreP .. | .cStoreN .. => true
  | _ => false

/-- Between the reservation of `push_batch` and the end of its slot loop. -/
def Pc.writing : Pc T → Bool
  | .pNext .. | .pLink .. | .pStore .. | .pWait .. | .pWrite .. => true
  | _ => false

/-- Between the claim of `pop_batch` and the end of its iterator. -/
def Pc.reading : Pc T → Bool
  | .cPost .. | .cWalk .. | .cNext .. | .cSpin .. | .cNext2 .. | .cStoreP .. | .cStoreN .. => true
  | .iRead .. | .iNext .. | .iConsume .. | .iReset .. | .iPool .. | .iFree .. => true
  | _ => false

/-- The blocks outside the chain that a thread holds. -/
def Pc.owns : Pc T → List Addr
  | .pLoad p | .pInitSwap p | .pInitAlloc p | .pInitStore p _ | .pReload p | .pSwap p _ _
  | .pAlloc p _ _ | .pCas p _ | .pDrop p => p.blocks
  | .pInitCas _ root => [root]
  | .pNext w | .pLink w | .pStore w _ => w.root
  | .pWait f | .pWrite f _ => f.p.blocks
  | .iReset _ a | .iPool _ a | .iFree _ a => [a]
  | _ => []

/-- `t` holds no block outside of the list. -/
def Keeps (l : List Addr) : Prop := ∀ a, g.owner a = .held t → a ∈ l

/-- The assertion of thread `t`, with the locks and the blocks its program counter
stands for. -/
structure Local (pc : Pc T) : Prop where
  holdsI : g.stage = .opening t ↔ pc.holdsI = true
  holdsP : g.pown = some t ↔ pc.holdsP = true
  holdsC : g.cown = some t ↔ pc.holdsC cfg = true
  pending : pc.writing = false → g.L.Pending t 0 0
  covers : pc.reading = false → g.L.Covers t 0 0
  keeps : Keeps t g pc.owns
  here : At.Pc cfg t s g pc

/-- What thread `u` relies on. -/
structure Rely (u : Tid) (s : Shared T) (g : Ghost T) (s' : Shared T) (g' : Ghost T) : Prop where
  ledger : Ledger.Frame u g.L g'.L
  covers : ∀ a n, g.L.Covers u a n → g'.L.Covers u a n
  linked : s.linked <+: s'.linked
  log : s.log.Grows s'.log
  seen : s'.seen u = s.seen u
  held : ∀ a, g.owner a = .held u → g'.owner a = .held u ∧ s'.heap a = s.heap a
  keeps : ∀ a, g'.owner a = .held u → g.owner a = .held u
  opening : g'.stage = .opening u ↔ g.stage = .opening u
  started : g.stage ≠ .fresh → g'.stage ≠ .fresh
  ready : g.stage = .ready → g'.stage = .ready
  pk : g.pk ≤ g'.pk
  pown : g.pown = some u → s'.linked = s.linked ∧ g'.pk = g.pk ∧ g'.L.ppos = g.L.ppos
  pown_iff : g'.pown = some u ↔ g.pown = some u
  ck : g.ck ≤ g'.ck
  cpos : g.L.cpos ≤ g'.L.cpos
  cown : g.cown = some u → g'.ck = g.ck
  cown_iff : g'.cown = some u ↔ g.cown = some u

/-- Thread `t` does not win its CAS on `chead` with a snapshot from an earlier
life of the block. -/
def AbaFree : Pc T → Prop
  | .cCas _ chead _ => s.chead = chead → chead.hasNext = false →
      chead.block.elim 0 (tokenOf s.linked) = s.seen t
  | _ => True

end Inv

end Mpmc
