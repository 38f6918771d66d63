/-
# The v8 freelist on its own

A step-by-step model of `src/v8/freelist.rs` with the `BlockList` and
`OwnedBlock` of `src/v8/block.rs`, apart from the queue that uses it: any number
of threads call `take`, `recycle`, `acquire` and `flush` in any order, and work on
the block lists they own in between.  Every atomic access of the freelist head is
one step; the walk along a detached chain reads one link per step.

Conventions, beyond those of the queue's machine.

* `Shared.owned t` are the `BlockList`s in the variables of thread `t`.  An
  `OwnedBlock` is a list of one block.
* `Work` is what safe code can do with its own lists: `BlockList::pop`,
  `add_assign` (of which `BlockList::push` is the case of one block), dropping the
  first block of a list, and handing a list to another thread.
* A limit is an `Option ℕ`; `none` is the `usize::MAX` of `flush`.

The fields of `Shared` after `owned` are history: they are written, never read by a
branch.  `detached t` is the chain behind the head that `t` last replaced by the
busy token.
-/
import Ubq.V8.Machine

namespace FreeList

open Function

open V8 (Block FreeHead Tid)

/-- The operations of the freelist. -/
inductive Op
  | take (limit : ℕ)
  | recycle (i : ℕ)
  | acquire (count : ℕ)
  | flush

/-- What an operation hands back: a list of blocks, nothing, or a number. -/
inductive Res
  | blocks (l : List Addr)
  | recycled
  | freed (n : ℕ)

/-- What a thread does with its own lists. -/
inductive Work
  | pop (i : ℕ)
  | add (i j : ℕ)
  | drop (i : ℕ)
  | give (i : ℕ) (u : Tid)

/-- A finished `take` that detached a chain. -/
structure Take where
  limit : Option ℕ
  chain : List Addr
  taken : List Addr
  rest : Option Addr

/-- The head, the blocks and the lists of the threads. -/
structure Shared (T : Type*) where
  head : FreeHead
  heap : Addr → Block T
  allocated : Addr → Bool
  owned : Tid → List (List Addr)
  /-- Blocks allocated, and blocks freed, in order. -/
  made : List Addr
  gone : List Addr
  detached : Tid → List Addr
  takes : List Take
  /-- Finished calls with their results. -/
  trace : List (Tid × Op × Res)

section Memory

variable {T : Type*}

namespace Shared

/-- A block changes. -/
def modBlock (s : Shared T) (a : Addr) (f : Block T → Block T) : Shared T :=
  { s with heap := update s.heap a (f (s.heap a)) }

/-- `OwnedBlock::new` at the address the allocator returned. -/
def alloc (s : Shared T) (a : Addr) : Shared T :=
  { s with
    heap := update s.heap a Block.new
    allocated := update s.allocated a true
    made := s.made ++ [a] }

/-- The drop of an `OwnedBlock`. -/
def dealloc (s : Shared T) (a : Addr) : Shared T :=
  { s with
    allocated := update s.allocated a false
    gone := s.gone ++ [a] }

/-- `BlockList::add_assign`: the right-hand blocks go in front. -/
def addAssign (s : Shared T) (self rhs : List Addr) : Shared T × List Addr :=
  match rhs.getLast? with
  | none => (s, self)
  | some z => (s.modBlock z (·.setNext self.head?), rhs ++ self)

/-- The thread drops the variable of its list number `i`. -/
def takeOut (s : Shared T) (t : Tid) (i : ℕ) : Shared T :=
  { s with owned := update s.owned t ((s.owned t).eraseIdx i) }

/-- The thread gets a variable for the list. -/
def putIn (s : Shared T) (t : Tid) (l : List Addr) : Shared T :=
  { s with owned := update s.owned t (l :: s.owned t) }

/-- The blocks along the links, at most `n` of them. -/
def walk (s : Shared T) : ℕ → Option Addr → List Addr
  | 0, _ => []
  | _, none => []
  | n + 1, some a => a :: s.walk n (s.heap a).next

end Shared

end Memory

/-! ## Program counters -/

/-- Where `take` returns to. -/
inductive TakeRet
  | caller (limit : ℕ)
  | acquire (count : ℕ) (blocks : List Addr) (remaining : ℕ)
  | flush

/-- The number of blocks that are asked for. -/
def TakeRet.limit : TakeRet → Option ℕ
  | caller limit => some limit
  | acquire _ _ remaining => some remaining
  | flush => none

/-- The next access of a thread. -/
inductive Pc
  | idle
  | fault
  -- take
  | tLoad (ret : TakeRet)
  | tCas (ret : TakeRet) (head : Addr)
  | tWalk (ret : TakeRet) (taken : List Addr) (rest : Option Addr)
  | tDone (ret : TakeRet) (cached : List Addr)
  -- acquire
  | aAlloc (count : ℕ) (blocks : List Addr) (remaining : ℕ)
  -- flush
  | fDrop (blocks : List Addr) (freed : ℕ)
  -- recycle
  | rReset (i : ℕ) (b : Addr)
  | rLoad (i : ℕ) (b : Addr)
  | rLink (i : ℕ) (b : Addr) (head : FreeHead)
  | rPush (i : ℕ) (b : Addr) (head : Option Addr)
  | rFree (i : ℕ) (b : Addr)

/-- What the scheduler decides at a step. -/
inductive Act
  | call (op : Op)
  | work (w : Work)
  | run
  | spurious
  | alloc (a : Addr)

section Code

variable {T : Type*}

/-- Return from a call. -/
def ret (s : Shared T) (t : Tid) (op : Op) (res : Res) : Shared T × Pc :=
  ({ s with trace := s.trace ++ [(t, op, res)] }, .idle)

/-- Return a list of blocks from a call. -/
def retList (s : Shared T) (t : Tid) (op : Op) (l : List Addr) : Shared T × Pc :=
  ret (s.putIn t l) t op (.blocks l)

/-- `take` has returned the list `cached`. -/
def took (s : Shared T) (t : Tid) (r : TakeRet) (cached : List Addr) : Shared T × Pc :=
  match r with
  | .caller limit => retList s t (.take limit) cached
  | .acquire count blocks remaining =>
    let (s', blocks') := s.addAssign blocks cached
    if remaining - cached.length = 0 then retList s' t (.acquire count) blocks'
    else (s', .aAlloc count blocks' (remaining - cached.length))
  | .flush => (s, .fDrop cached 0)

/-- `take` looks at the head it has read. -/
def takeHead (r : TakeRet) : FreeHead → Pc
  | .ptr (some a) => .tCas r a
  | _ => .tDone r []

/-- The end of `take`: sever the taken prefix and publish the rest. -/
def severed (s : Shared T) (t : Tid) (r : TakeRet) (taken : List Addr) (rest : Option Addr) :
    Shared T × Pc :=
  match taken.getLast? with
  | none => (s, .fault)
  | some z => ({ s.modBlock z (·.setNext none) with
      head := .ptr rest
      takes := s.takes ++ [⟨r.limit, s.detached t, taken, rest⟩] }, .tDone r taken)

/-- Private work of thread `t`. -/
def work (s : Shared T) (t : Tid) : Work → Option (Shared T)
  | .pop i =>
    match (s.owned t)[i]? with
    | some (a :: l) => some ((((s.takeOut t i).modBlock a (·.setNext none)).putIn t l).putIn t [a])
    | _ => none
  | .add i j =>
    match (s.owned t)[i]?, ((s.takeOut t i).owned t)[j]? with
    | some self, some rhs =>
      let (s', l) := ((s.takeOut t i).takeOut t j).addAssign self rhs
      some (s'.putIn t l)
    | _, _ => none
  | .drop i =>
    match (s.owned t)[i]? with
    | some (a :: l) => some (((s.takeOut t i).dealloc a).putIn t l)
    | _ => none
  | .give i u =>
    match (s.owned t)[i]? with
    | some l => some ((s.takeOut t i).putIn u l)
    | _ => none

/-- One atomic step of thread `t`; `none` when the scheduler's choice does not
fit the program counter. -/
def step (t : Tid) (act : Act) (s : Shared T) (pc : Pc) : Option (Shared T × Pc) :=
  match act, pc with
  | .work w, .idle => (work s t w).map fun s' => (s', .idle)
  | .alloc a, .idle => if s.allocated a then none else some ((s.alloc a).putIn t [a], .idle)
  | .call (.take limit), .idle =>
    if limit = 0 then some (retList s t (.take limit) []) else some (s, .tLoad (.caller limit))
  | .call (.recycle i), .idle =>
    match (s.owned t)[i]? with
    | some [b] => some (s.takeOut t i, .rReset i b)
    | _ => none
  | .call (.acquire count), .idle =>
    if count = 0 then some (retList s t (.acquire count) [])
    else some (s, .tLoad (.acquire count [] count))
  | .call .flush, .idle => some (s, .tLoad .flush)
  -- take
  | .run, .tLoad r => some (s, takeHead r s.head)
  | .run, .tCas r head =>
    if s.head = .ptr (some head) then
      some ({ s with
        head := .busy
        detached := update s.detached t (s.walk s.made.length (some head)) },
        .tWalk r [] (some head))
    else some (s, takeHead r s.head)
  | .spurious, .tCas r _ => some (s, takeHead r s.head)
  | .run, .tWalk r taken rest =>
    match rest with
    | some a =>
      if r.limit.all (taken.length < ·) then some (s, .tWalk r (taken ++ [a]) (s.heap a).next)
      else some (severed s t r taken rest)
    | none => some (severed s t r taken rest)
  | .run, .tDone r cached => some (took s t r cached)
  -- acquire
  | .alloc a, .aAlloc count blocks remaining =>
    if s.allocated a then none
    else
      let s' := (s.alloc a).modBlock a (·.setNext blocks.head?)
      if remaining - 1 = 0 then some (retList s' t (.acquire count) (a :: blocks))
      else some (s', .tLoad (.acquire count (a :: blocks) (remaining - 1)))
  -- flush
  | .run, .fDrop blocks freed =>
    match blocks with
    | [] => some (ret s t .flush (.freed freed))
    | b :: rest => some (s.dealloc b, .fDrop rest (freed + 1))
  -- recycle
  | .run, .rReset i b => some (s.modBlock b Block.reset, .rLoad i b)
  | .run, .rLoad i b => some (s, .rLink i b s.head)
  | .run, .rLink i b head =>
    match head with
    | .busy => some (s, .rFree i b)
    | .ptr p => some (s.modBlock b (·.setNext p), .rPush i b p)
  | .run, .rPush i b head =>
    if s.head = .ptr head then some (ret { s with head := .ptr (some b) } t (.recycle i) .recycled)
    else some (s, .rLink i b s.head)
  | .spurious, .rPush i b _ => some (s, .rLink i b s.head)
  | .run, .rFree i b => some (ret (s.dealloc b) t (.recycle i) .recycled)
  | _, _ => none

end Code

/-- `FreeList::new`, with no block allocated. -/
def Shared.new {T : Type*} : Shared T where
  head := .ptr none
  heap := fun _ => Block.new
  allocated := fun _ => false
  owned := fun _ => []
  made := []
  gone := []
  detached := fun _ => []
  takes := []
  trace := []

/-- The freelist under any number of threads and any schedule. -/
def system (T : Type*) : Interleave.System Tid (Shared T) Pc := .ofStep Shared.new .idle step

end FreeList
