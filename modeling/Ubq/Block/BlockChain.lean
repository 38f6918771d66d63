/-
# Chains of blocks

`BlockChain` is the private stock of blocks from which a producer extends the queue: two
end pointers and a number of slots.  A chain grows by one block from the shared pool and
by at most one allocation, which is a run of consecutive pages linked in order.

A program is a sequence of operations on variables, each of which is a chain, a part that
`take` has taken out of one, or a pool.  `Op.effect` says what each operation means for
plain lists of blocks, and `chain_refines` that every sequence that does not panic
computes it.
-/
import Ubq.Block.Layout
import Ubq.Strands

namespace Block

open Function

/-- `BlockChain`. -/
structure BlockChain where
  root : Option Addr
  tail : Option Addr
  size : ℕ

namespace BlockChain

/-- A target and an accepted block type. -/
structure Config where
  target : Target
  kind : Kind
  layout : BlockLayout
  accepted : BlockLayout.new target kind = .ok layout

namespace Config

variable (c : Config)

/-- `MpmcBlock::capacity`. -/
def capacity : ℕ := c.layout.slotsLen

theorem capacity_pos : 0 < c.capacity := (BlockLayout.slotsLen_lt c.accepted).1

theorem page_pos : 0 < c.layout.size := by
  obtain ⟨_, _, _, _, hl⟩ := BlockLayout.new_eq_ok.mp c.accepted
  rw [hl]
  exact Nat.two_pow_pos _

/-- The number of blocks for `size` slots. -/
def count (size : ℕ) : ℕ := (size + c.capacity - 1) / c.capacity

/-- The `n` blocks of a run at `base`. -/
def run (base n : ℕ) : List Addr := (List.range n).map fun index => base + index * c.layout.size

/-- The blocks of an allocation at `base` for `size` slots. -/
def pages (base size : ℕ) : List Addr := c.run base (c.count size)

/-- `BlockLayout` rounds up: the blocks hold what was asked for. -/
theorem le_count (size : ℕ) : size ≤ c.count size * c.capacity := by
  have hpos := c.capacity_pos
  have hdiv := Nat.div_add_mod (size + c.capacity - 1) c.capacity
  have hmod := Nat.mod_lt (size + c.capacity - 1) hpos
  unfold count
  rw [Nat.mul_comm]
  omega

theorem count_zero : c.count 0 = 0 := by
  have hpos := c.capacity_pos
  exact Nat.div_eq_of_lt (by omega)

theorem pages_zero (base : ℕ) : c.pages base 0 = [] := by
  unfold pages
  rw [c.count_zero]
  rfl

theorem count_pos {size : ℕ} (h : size ≠ 0) : 0 < c.count size := by
  by_contra hc
  have hle := c.le_count size
  rw [Nat.eq_zero_of_not_pos hc, Nat.zero_mul] at hle
  omega

end Config

/-- A panic with its message, or a failed debug assertion. -/
inductive Fault
  | panic (message : String)
  | debugAssert

/-- The links, the allocated blocks and the number of allocations of block storage. -/
structure Heap where
  next : Addr → Option Addr
  live : Addr → Bool
  allocs : ℕ

/-- `Block::initialize`, in storage that the allocator has just returned. -/
def Heap.initializeBlock (h : Heap) (block : Addr) (next : Option Addr) : Heap :=
  { h with next := update h.next block next, live := update h.live block true }

variable (c : Config)
variable {pool : Option Addr}

/-- The first `n` rounds of the loop of `new_run`. -/
def initRun (h : Heap) (base blockCount n : ℕ) : Heap :=
  (List.range n).foldl (fun h index =>
    let offset := index * c.layout.size
    h.initializeBlock (base + offset)
      (if index + 1 = blockCount then none else some (base + (offset + c.layout.size)))) h

/-- `MpmcBlock::new_run`, with the address the allocator returns. -/
def newRun (h : Heap) (base blockCount : ℕ) : Except Fault (Heap × Option Addr × Option Addr) :=
  if ¬ 1 < blockCount then .error (.panic "a block run needs at least two pages")
  else if 2 ^ c.target.bits ≤ c.layout.size * blockCount then
    .error (.panic "block-run allocation size overflows usize")
  else if ¬ c.layout.size * blockCount ≤ c.target.isizeMax + 1 - c.layout.align then
    .error (.panic "block-run allocation is too large")
  else
    .ok ({ initRun c h base blockCount blockCount with allocs := h.allocs + 1 }, some base,
      some (base + (blockCount - 1) * c.layout.size))

/-- `BlockChain::zero`. -/
def zero : BlockChain := ⟨none, none, 0⟩

/-- `BlockChain::new_with`. -/
def newWith (inner : Addr) : BlockChain := ⟨some inner, some inner, c.capacity⟩

/-- `BlockChain::new`. -/
def new (h : Heap) (base size : ℕ) : Except Fault (Heap × BlockChain) :=
  if size = 0 then .ok (h, zero)
  else
    let blockCount := c.count size
    let size := blockCount * c.capacity
    if 2 ^ c.target.bits ≤ size then .error (.panic "block-chain capacity overflows usize")
    else if blockCount = 1 then
      .ok ({ h.initializeBlock base none with allocs := h.allocs + 1 }, newWith c base)
    else (newRun c h base blockCount).map fun r => (r.1, ⟨r.2.1, r.2.2, size⟩)

/-- `give`: the heap and the two chains afterwards. -/
def give (h : Heap) (self other : BlockChain) : Except Fault (Heap × BlockChain × BlockChain) :=
  if other.root = none then
    if other.tail ≠ none ∨ other.size ≠ 0 then .error .debugAssert else .ok (h, self, other)
  else if other.tail = none ∨ other.size = 0 then .error .debugAssert
  else if 2 ^ c.target.bits ≤ self.size + other.size then
    .error (.panic "block-chain capacity overflows usize")
  else if self.root = none then
    if self.tail ≠ none ∨ self.size ≠ 0 then .error .debugAssert
    else .ok (h, ⟨other.root, other.tail, self.size + other.size⟩, zero)
  else
    match self.tail with
    | none => .error .debugAssert
    | some z =>
      .ok ({ h with next := update h.next z other.root },
        ⟨self.root, other.tail, self.size + other.size⟩, zero)

/-- The first half of `grow_to_fit_with`: the block of the pool. -/
def growPool (h : Heap) (self : BlockChain) (size : ℕ) (pool : Option Addr) :
    Except Fault (Heap × BlockChain × Option Addr) :=
  if self.size < size then
    match pool with
    | none => .ok (h, self, none)
    | some a => (give c h self (newWith c a)).map fun r => (r.1, r.2.1, none)
  else .ok (h, self, pool)

/-- `grow_to_fit_with`: the heap, the chain and the pool afterwards. -/
def growToFitWith (h : Heap) (self : BlockChain) (size : ℕ) (pool : Option Addr) (base : ℕ) :
    Except Fault (Heap × BlockChain × Option Addr) := do
  let (h, self, pool) ← growPool c h self size pool
  if self.size < size then
    let (h, other) ← new c h base (size - self.size)
    let (h, self, _) ← give c h self other
    return (h, self, pool)
  else return (h, self, pool)

/-- `take`: the part, and the chain it leaves. -/
def take (self : BlockChain) : BlockChain × BlockChain := (self, zero)

/-- `give_back`. -/
def giveBack (self part : BlockChain) : Except Fault BlockChain :=
  if self.root ≠ none ∨ self.tail ≠ none ∨ self.size ≠ 0 ∨ ¬ (part.root = none ↔ part.tail = none) ∨
      ¬ (part.root = none ↔ part.size = 0) then
    .error .debugAssert
  else .ok part

/-- The chain describes the blocks `xs`: it is `(null, null, 0)` for none, and otherwise
has their ends and their slots. -/
def Describes (self : BlockChain) (xs : List Addr) : Prop :=
  self.root = xs.head? ∧ self.tail = xs.getLast? ∧ self.size = xs.length * c.capacity

/-! ## Programs -/

/-- A variable of the caller. -/
inductive Var
  | chain (b : BlockChain)
  | part (b : BlockChain)
  | pool (p : Option Addr)

/-- The variable owns the blocks `xs`. -/
def Var.Describes : Var → List Addr → Prop
  | .chain b, xs | .part b, xs => b.Describes c xs
  | .pool p, xs => xs = p.toList

/-- The heap and the variables of the caller. -/
structure State extends Heap where
  vars : List Var

/-- The operations on the variables with the given indices; `recycle` is another thread
that puts a reset block into an empty pool. -/
inductive Op
  | new (base size : ℕ)
  | newPool
  | recycle (k : ℕ) (a : Addr)
  | give (i j : ℕ)
  | grow (i k size base : ℕ)
  | take (i : ℕ)
  | giveBack (i j : ℕ)

/-- One operation; on variables of other types it does nothing. -/
def State.apply (s : State) : Op → Except Fault State
  | .new base size => (new c s.toHeap base size).map fun r => ⟨r.1, s.vars ++ [.chain r.2]⟩
  | .newPool => .ok { s with vars := s.vars ++ [.pool none] }
  | .recycle k a =>
    match s.vars[k]? with
    | some (.pool none) => .ok ⟨s.initializeBlock a none, s.vars.set k (.pool (some a))⟩
    | _ => .ok s
  | .give i j =>
    match s.vars[i]?, s.vars[j]? with
    | some (.chain self), some (.chain other) =>
      (give c s.toHeap self other).map fun r =>
        ⟨r.1, (s.vars.set i (.chain r.2.1)).set j (.chain r.2.2)⟩
    | _, _ => .ok s
  | .grow i k size base =>
    match s.vars[i]?, s.vars[k]? with
    | some (.chain self), some (.pool p) =>
      (growToFitWith c s.toHeap self size p base).map fun r =>
        ⟨r.1, (s.vars.set i (.chain r.2.1)).set k (.pool r.2.2)⟩
    | _, _ => .ok s
  | .take i =>
    match s.vars[i]? with
    | some (.chain self) =>
        .ok { s with vars := s.vars.set i (.chain self.take.2) ++ [.part self.take.1] }
    | _ => .ok s
  | .giveBack i j =>
    match s.vars[i]?, s.vars[j]? with
    | some (.chain self), some (.part p) =>
      (self.giveBack p).map fun b => { s with vars := (s.vars.set i (.chain b)).set j (.part zero) }
    | _, _ => .ok s

/-- The caller's side: variables of the right types, two of them apart, an empty chain for
`give_back`, and memory that the allocator has not given out yet. -/
def Op.Ready (s : State) : Op → Prop
  | .new base size => ∀ a ∈ c.pages base size, s.live a = false
  | .newPool => True
  | .recycle k a => s.vars[k]? = some (.pool none) ∧ s.live a = false
  | .give i j =>
      i ≠ j ∧ ∃ self other, s.vars[i]? = some (.chain self) ∧ s.vars[j]? = some (.chain other)
  | .grow i k size base =>
    ∃ self p, s.vars[i]? = some (.chain self) ∧ s.vars[k]? = some (.pool p) ∧
      ∀ a ∈ c.pages base (size - (self.size + p.toList.length * c.capacity)), s.live a = false
  | .take i => ∃ self, s.vars[i]? = some (.chain self)
  | .giveBack i j => s.vars[i]? = some (.chain zero) ∧ ∃ p, s.vars[j]? = some (.part p)

/-- The operation on plain lists of blocks, one for each variable. -/
def Op.effect (ls : List (List Addr)) : Op → List (List Addr)
  | .new base size => ls ++ [c.pages base size]
  | .newPool => ls ++ [[]]
  | .recycle k a => ls.set k [a]
  | .give i j => (ls.set i (ls.getD i [] ++ ls.getD j [])).set j []
  | .grow i k size base =>
    let xs := ls.getD i []
    let pooled := ls.getD k []
    if xs.length * c.capacity < size then
      (ls.set i (xs ++ pooled ++ c.pages base (size - (xs ++ pooled).length * c.capacity))).set k []
    else ls
  | .take i => ls.set i [] ++ [ls.getD i []]
  | .giveBack i j => (ls.set i (ls.getD j [])).set j []

/-- The operations lead from `s` to `s'` without a panic. -/
def Runs : List Op → State → State → Prop
  | [], s, s' => s = s'
  | op :: ops, s, s' => op.Ready c s ∧ ∃ m, s.apply c op = .ok m ∧ Runs ops m s'

/-- The variables own the lists `ls`, which are disjoint, linked as listed and hold every
allocated block. -/
def State.Owns (s : State) (ls : List (List Addr)) : Prop :=
  Owned (Var.Describes c) s.next s.live s.vars ls

/-! ## Allocation -/

variable {c} {h : Heap} {ls : List (List Addr)} {xs ys : List Addr} {self other : BlockChain}

theorem page_inj {base i j : ℕ} (hij : base + i * c.layout.size = base + j * c.layout.size) :
    i = j :=
  Nat.eq_of_mul_eq_mul_right c.page_pos (Nat.add_left_cancel hij)

theorem run_nodup (base n : ℕ) : (c.run base n).Nodup :=
  List.nodup_range.map fun _ _ => page_inj

theorem run_succ (base n : ℕ) :
    c.run base (n + 1) = c.run base n ++ [base + n * c.layout.size] := by
  simp [Config.run, List.range_succ]

theorem initRun_succ (base total n : ℕ) :
    initRun c h base total (n + 1) =
      (initRun c h base total n).initializeBlock (base + n * c.layout.size)
      (if n + 1 = total then none else some (base + (n * c.layout.size + c.layout.size))) := by
  unfold initRun
  rw [List.range_succ, List.foldl_append]
  rfl

/-- Each round links its page to the following one and touches no other. -/
theorem initRun_next (base total n : ℕ) :
    (∀ index < n, (initRun c h base total n).next (base + index * c.layout.size) =
      if index + 1 = total then none else some (base + (index + 1) * c.layout.size)) ∧
    ∀ a, a ∉ c.run base n → (initRun c h base total n).next a = h.next a := by
  induction n with
  | zero => exact ⟨fun index hlt => absurd hlt (Nat.not_lt_zero _), fun _ _ => rfl⟩
  | succ n ih =>
    rw [initRun_succ]
    refine ⟨fun index hlt => ?_, fun a ha => ?_⟩
    · by_cases hn : index = n
      · subst hn
        rw [Nat.succ_mul]
        exact update_self ..
      · rw [← ih.1 index (by omega)]
        exact update_of_ne (fun hc => hn (page_inj hc)) ..
    · rw [run_succ, List.mem_append, not_or, List.mem_singleton] at ha
      rw [← ih.2 a ha.1]
      exact update_of_ne ha.2 ..

theorem initRun_live (base total n : ℕ) (a : Addr) :
    (initRun c h base total n).live a = true ↔ a ∈ c.run base n ∨ h.live a = true := by
  induction n with
  | zero => simp [initRun, Config.run]
  | succ n ih =>
    rw [initRun_succ, run_succ, List.mem_append, List.mem_singleton]
    by_cases ha : a = base + n * c.layout.size
    · simp [Heap.initializeBlock, ha]
    · simp [Heap.initializeBlock, ha, update_of_ne, ih]

theorem initRun_path (base : ℕ) {total n : ℕ} (hn : n ≤ total) (hpos : 0 < total) :
    LinkPath (initRun c h base total total).next (some base) (c.run base n)
      (if n = total then none else some (base + n * c.layout.size)) := by
  -- every page leads to the next one, up to the end of the run
  induction n with
  | zero =>
    rw [if_neg (by omega), Nat.zero_mul]
    rfl
  | succ n ih =>
    have hpath := ih (by omega)
    rw [if_neg (by omega)] at hpath
    rw [run_succ]
    exact path_append.mpr ⟨_, hpath, rfl, (initRun_next base total total).1 n (by omega)⟩

theorem run_head (base : ℕ) {n : ℕ} (hn : 0 < n) : (c.run base n).head? = some base := by
  obtain ⟨n, rfl⟩ := Nat.exists_eq_succ_of_ne_zero (Nat.ne_of_gt hn)
  simp [Config.run, List.range_succ_eq_map]

/-- A run of pages is a list of its own. -/
theorem initRun_strands (hs : Strands h.next h.live ls) {base n : ℕ} (hn : 0 < n)
    (hfresh : ∀ a ∈ c.run base n, h.live a = false) :
    Strands (initRun c h base n n).next (initRun c h base n n).live (c.run base n :: ls) := by
  refine hs.fresh (run_nodup base n) hfresh ?_ (initRun_next base n n).2 (initRun_live base n n)
  have hpath := initRun_path (c := c) (h := h) base (Nat.le_refl n) hn
  rw [if_pos rfl] at hpath
  rwa [run_head base hn]

theorem run_describes (base : ℕ) {n : ℕ} (hn : 0 < n) :
    Describes c ⟨some base, some (base + (n - 1) * c.layout.size), n * c.capacity⟩
      (c.run base n) := by
  refine ⟨(run_head base hn).symm, ?_, by simp [Config.run]⟩
  obtain ⟨n, rfl⟩ := Nat.exists_eq_succ_of_ne_zero (Nat.ne_of_gt hn)
  rw [run_succ, List.getLast?_append]
  rfl

/-- **`new`** makes one allocation of enough pages, or panics. -/
theorem new_ok (hs : Strands h.next h.live ls) {base size : ℕ}
    (hfresh : ∀ a ∈ c.pages base size, h.live a = false) :
    (∃ h' b, new c h base size = .ok (h', b) ∧ b.Describes c (c.pages base size) ∧
      Strands h'.next h'.live (c.pages base size :: ls) ∧ h'.allocs ≤ h.allocs + 1) ∨
    ∃ message, new c h base size = .error (.panic message) := by
  unfold new
  by_cases hzero : size = 0
  · subst hzero
    rw [if_pos rfl, c.pages_zero]
    exact .inl ⟨_, _, rfl, ⟨rfl, rfl, (Nat.zero_mul _).symm⟩, hs.nil, Nat.le_succ _⟩
  have hpos := c.count_pos hzero
  have hrun := initRun_strands hs hpos hfresh
  have hdesc := run_describes (c := c) base hpos
  rw [if_neg hzero]
  dsimp only
  split
  · exact .inr ⟨_, rfl⟩
  split
  · rename_i hone
    have hchain :
        newWith c base = ⟨some base, some (base + (1 - 1) * c.layout.size), 1 * c.capacity⟩ := by
      simp [newWith]
    have hheap : h.initializeBlock base none = initRun c h base 1 1 := by simp [initRun]
    rw [hchain, hheap, Config.pages, hone]
    rw [hone] at hrun hdesc
    exact .inl ⟨_, _, rfl, hdesc, hrun, Nat.le_refl _⟩
  · unfold newRun
    split
    · exact .inr ⟨_, rfl⟩
    split
    · exact .inr ⟨_, rfl⟩
    split
    · exact .inr ⟨_, rfl⟩
    · exact .inl ⟨_, _, rfl, hdesc, hrun, Nat.le_refl _⟩

/-! ## Giving and growing -/

theorem Describes.root_none (hb : self.Describes c xs) : self.root = none ↔ xs = [] := by
  rw [hb.1, List.head?_eq_none_iff]

theorem Describes.tail_none (hb : self.Describes c xs) : self.tail = none ↔ xs = [] := by
  rw [hb.2.1, List.getLast?_eq_none_iff]

theorem Describes.size_zero (hb : self.Describes c xs) : self.size = 0 ↔ xs = [] := by
  rw [hb.2.2, Nat.mul_eq_zero, List.length_eq_zero_iff, or_iff_left (Nat.ne_of_gt c.capacity_pos)]

theorem describes_zero : Describes c zero [] := ⟨rfl, rfl, (Nat.zero_mul _).symm⟩

theorem describes_newWith (a : Addr) : (newWith c a).Describes c [a] :=
  ⟨rfl, rfl, (Nat.one_mul _).symm⟩

/-- **`give`** appends the donor's blocks and leaves it empty, or panics. -/
theorem give_ok (hself : self.Describes c xs) (hother : other.Describes c ys)
    (hs : Strands h.next h.live (xs :: ys :: ls)) :
    (∃ h' self' other', give c h self other = .ok (h', self', other') ∧
      self'.Describes c (xs ++ ys) ∧
      other'.Describes c [] ∧ Strands h'.next h'.live ((xs ++ ys) :: [] :: ls) ∧
      h'.live = h.live ∧ h'.allocs = h.allocs) ∨
    ∃ message, give c h self other = .error (.panic message) := by
  unfold give
  by_cases hys : ys = []
  · subst hys
    rw [if_pos (hother.root_none.mpr rfl), if_neg (by simp [hother.tail_none, hother.size_zero]),
      List.append_nil]
    exact .inl ⟨_, _, _, rfl, hself, hother, hs, rfl, rfl⟩
  rw [if_neg (hother.root_none.not.mpr hys),
    if_neg (by simp [hother.tail_none, hother.size_zero, hys])]
  split
  · exact .inr ⟨_, rfl⟩
  have hsize : self.size + other.size = (xs ++ ys).length * c.capacity := by
    rw [hself.2.2, hother.2.2, List.length_append, Nat.add_mul]
  have htail : other.tail = (xs ++ ys).getLast? := by
    rw [hother.2.1, List.getLast?_append, Option.or_of_isSome]
    exact Option.isSome_iff_ne_none.mpr fun hc => hys (List.getLast?_eq_none_iff.mp hc)
  by_cases hxs : xs = []
  · subst hxs
    rw [if_pos (hself.root_none.mpr rfl), if_neg (by simp [hself.tail_none, hself.size_zero])]
    exact .inl ⟨_, _, _, rfl, ⟨hother.1, htail, hsize⟩, describes_zero, hs.perm (.swap _ _ _),
      rfl, rfl⟩
  · rw [if_neg (hself.root_none.not.mpr hxs)]
    obtain ⟨z, hz⟩ := Option.ne_none_iff_exists'.mp (hself.tail_none.not.mpr hxs)
    rw [hz]
    refine .inl ⟨_, _, _, rfl, ⟨?_, htail, hsize⟩, describes_zero, ?_, rfl, rfl⟩
    · rw [List.head?_append_of_ne_nil _ hxs]
      exact hself.1
    · rw [hother.1]
      exact (hs.join (hself.2.1.symm.trans hz)).nil.perm (.swap _ _ _)

/-- The blocks by which `grow_to_fit_with` extends `xs`. -/
def grown (c : Config) (xs pooled : List Addr) (size base : ℕ) : List Addr :=
  pooled ++ c.pages base (size - (xs ++ pooled).length * c.capacity)

theorem growPool_ok {size : ℕ} (hself : self.Describes c xs)
    (hs : Strands h.next h.live (xs :: pool.toList :: ls)) (hlt : self.size < size) :
    (∃ h' self', growPool c h self size pool = .ok (h', self', none) ∧
      self'.Describes c (xs ++ pool.toList) ∧
      Strands h'.next h'.live ((xs ++ pool.toList) :: [] :: ls) ∧
      h'.live = h.live ∧ h'.allocs = h.allocs) ∨
    ∃ message, growPool c h self size pool = .error (.panic message) := by
  unfold growPool
  rw [if_pos hlt]
  cases pool with
  | none =>
    rw [Option.toList_none, List.append_nil]
    exact .inl ⟨_, _, rfl, hself, hs, rfl, rfl⟩
  | some a =>
    rcases give_ok hself (describes_newWith a) hs with
      ⟨h', self', _, hgive, hself', _, hs', hl, hn⟩ | ⟨message, hp⟩
    · refine .inl ⟨h', self', ?_, hself', hs', hl, hn⟩
      simp only [hgive, Except.map]
    · exact .inr ⟨message, by simp only [hp, Except.map]⟩

/-- **`grow_to_fit_with`** appends the pooled block and one allocation, as far as they are
needed, or panics. -/
theorem growToFitWith_ok {size base : ℕ} (hself : self.Describes c xs)
    (hs : Strands h.next h.live (xs :: pool.toList :: ls)) (hlt : self.size < size)
    (hfresh : ∀ a ∈ c.pages base (size - (self.size + pool.toList.length * c.capacity)),
      h.live a = false) :
    (∃ h' self', growToFitWith c h self size pool base = .ok (h', self', none) ∧
      self'.Describes c (xs ++ grown c xs pool.toList size base) ∧
      Strands h'.next h'.live ((xs ++ grown c xs pool.toList size base) :: [] :: ls) ∧
      h'.allocs ≤ h.allocs + 1) ∨
    ∃ message, growToFitWith c h self size pool base = .error (.panic message) := by
  unfold growToFitWith grown
  rcases growPool_ok hself hs hlt with ⟨h₁, self₁, hpool, hself₁, hs₁, hl₁, hn₁⟩ | ⟨message, hp⟩
  swap
  · exact .inr ⟨message, by rw [hp]; rfl⟩
  rw [hpool, ← List.append_assoc]
  simp only [bind, Except.bind, pure, Except.pure]
  have hsize : self₁.size = self.size + pool.toList.length * c.capacity := by
    rw [hself₁.2.2, hself.2.2, List.length_append, Nat.add_mul]
  rw [← hself₁.2.2]
  rw [← hsize, ← hl₁] at hfresh
  by_cases hmore : self₁.size < size
  · rw [if_pos hmore]
    rcases new_ok hs₁ hfresh with ⟨h₂, b, hnew, hb, hs₂, hn₂⟩ | ⟨message, hp⟩
    swap
    · exact .inr ⟨message, by rw [hp]⟩
    rw [hnew]
    dsimp only
    rcases give_ok hself₁ hb (hs₂.perm (.swap _ _ _)) with
      ⟨h₃, self₃, _, hgive, hself₃, _, hs₃, _, hn₃⟩ | ⟨message, hp⟩
    swap
    · exact .inr ⟨message, by rw [hp]⟩
    rw [hgive]
    refine .inl ⟨_, _, rfl, hself₃, (hs₃.perm (.swap _ _ _)).of_nil, ?_⟩
    show h₃.allocs ≤ _
    omega
  · rw [if_neg hmore, Nat.sub_eq_zero_of_le (Nat.le_of_not_lt hmore), c.pages_zero, List.append_nil]
    exact .inl ⟨_, _, rfl, hself₁, hs₁, by omega⟩

theorem growToFitWith_fits {size base : ℕ} (hle : ¬ self.size < size) :
    growToFitWith c h self size pool base = .ok (h, self, pool) := by
  unfold growToFitWith growPool
  rw [if_neg hle]
  simp only [bind, Except.bind, if_neg hle]
  rfl

/-! ## Steps and runs -/

variable {s s' : State}

theorem getD_eq {i : ℕ} (hi : ls[i]? = some xs) : ls.getD i [] = xs := by
  rw [List.getD_eq_getElem?_getD, hi]
  rfl

/-- **One operation** computes its meaning on the lists, with at most one allocation, or
panics. -/
theorem apply_refines (hs : s.Owns c ls) {op : Op} (hop : op.Ready c s) :
    (∃ m, s.apply c op = .ok m ∧ m.Owns c (op.effect c ls) ∧ m.allocs ≤ s.allocs + 1) ∨
    ∃ message, s.apply c op = .error (.panic message) := by
  cases op with
  | new base size =>
    rcases new_ok hs.strands hop with ⟨h', b, hnew, hb, hs', hn⟩ | ⟨message, hp⟩
    · refine .inl ⟨_, by simp only [State.apply, hnew, Except.map]; rfl, ?_, hn⟩
      exact Owned.append hs.rep hb hs'
    · exact .inr ⟨message, by simp only [State.apply, hp, Except.map]⟩
  | newPool => exact .inl ⟨_, rfl, Owned.append hs.rep rfl hs.strands.nil, Nat.le_succ _⟩
  | recycle k a =>
    obtain ⟨hk, ha⟩ := hop
    obtain ⟨xs, rest, hx, hrep, hstr, hset⟩ := hs.at_one hk
    obtain rfl : xs = [] := hrep
    refine .inl ⟨_, by simp only [State.apply, hk]; rfl, ?_, by exact Nat.le_succ _⟩
    refine (hset (p := .pool (some a)) rfl).1
      (hstr.of_nil.fresh (List.nodup_singleton a) ?_ ?_ ?_ ?_)
    · intro b hb
      rwa [List.mem_singleton.mp hb]
    · exact ⟨rfl, update_self ..⟩
    · exact fun b hb => update_of_ne (fun hc => hb (List.mem_singleton.mpr hc)) ..
    · intro b
      by_cases hb : b = a
      · simp [Heap.initializeBlock, hb]
      · simp [Heap.initializeBlock, hb, update_of_ne]
  | give i j =>
    obtain ⟨hij, self, other, hi, hj⟩ := hop
    obtain ⟨xs, ys, rest, hx, hy, hself, hother, hstr, hset⟩ := hs.at_two hij hi hj
    rcases give_ok hself hother hstr with
      ⟨h', self', other', hgive, hself', hother', hs', _, hn⟩ | ⟨message, hp⟩
    · refine .inl ⟨_, by simp only [State.apply, hi, hj, hgive, Except.map]; rfl, ?_, by simp [hn]⟩
      rw [Op.effect, getD_eq hx, getD_eq hy]
      exact hset hself' hother' hs'
    · exact .inr ⟨message, by simp only [State.apply, hi, hj, hp, Except.map]⟩
  | grow i k size base =>
    obtain ⟨self, p, hi, hk, hfresh⟩ := hop
    have hik : i ≠ k := by
      rintro rfl
      rw [hi] at hk
      cases hk
    obtain ⟨xs, ys, rest, hx, hy, hself, hpool, hstr, hset⟩ := hs.at_two hik hi hk
    obtain rfl : ys = p.toList := hpool
    rw [Op.effect, getD_eq hx, getD_eq hy, ← hself.2.2]
    by_cases hlt : self.size < size
    · rw [if_pos hlt, List.append_assoc]
      rcases growToFitWith_ok hself hstr hlt hfresh with
        ⟨h', self', hgrow, hself', hs', hn⟩ | ⟨message, hp⟩
      · refine .inl ⟨_, by simp only [State.apply, hi, hk, hgrow, Except.map]; rfl, ?_, hn⟩
        exact hset (q := .pool none) hself' rfl hs'
      · exact .inr ⟨message, by simp only [State.apply, hi, hk, hp, Except.map]⟩
    · rw [if_neg hlt]
      refine .inl ⟨_, by simp only [State.apply, hi, hk, growToFitWith_fits hlt, Except.map]; rfl,
        ?_, by exact Nat.le_succ _⟩
      rwa [set_of_getElem? hi, set_of_getElem? hk]
  | take i =>
    obtain ⟨self, hi⟩ := hop
    obtain ⟨xs, rest, hx, hself, hstr, hset⟩ := hs.at_one hi
    refine .inl ⟨_, by simp only [State.apply, hi]; rfl, ?_, by exact Nat.le_succ _⟩
    rw [Op.effect, getD_eq hx]
    exact (hset (p := .chain zero) describes_zero).2 (v := .part self) hself
      (hstr.nil.perm (.swap _ _ _))
  | giveBack i j =>
    obtain ⟨hi, p, hj⟩ := hop
    have hij : i ≠ j := by
      rintro rfl
      rw [hi] at hj
      cases hj
    obtain ⟨xs, ys, rest, hx, hy, hself, hpart, hstr, hset⟩ := hs.at_two hij hi hj
    obtain rfl : xs = [] := hself.root_none.mp rfl
    have hback : zero.giveBack p = .ok p := by
      unfold giveBack
      rw [if_neg]
      rw [hpart.root_none, hpart.tail_none, hpart.size_zero]
      simp [zero]
    refine .inl ⟨_, by simp only [State.apply, hi, hj, hback, Except.map]; rfl,
      ?_, by exact Nat.le_succ _⟩
    rw [Op.effect, getD_eq hy]
    exact hset (p := .chain p) (q := .part zero) hpart describes_zero (hstr.perm (.swap _ _ _))

theorem getElem?_set_two {vars : List Var} {i k : ℕ} {u v : Var} (u' v' : Var) (hik : i ≠ k)
    (hi : vars[i]? = some u) (hk : vars[k]? = some v) :
    ((vars.set i u').set k v')[i]? = some u' ∧ ((vars.set i u').set k v')[k]? = some v' := by
  obtain ⟨hilt, _⟩ := List.getElem?_eq_some_iff.mp hi
  obtain ⟨hklt, _⟩ := List.getElem?_eq_some_iff.mp hk
  refine ⟨?_, List.getElem?_set_self (by rw [List.length_set]; exact hklt)⟩
  rw [List.getElem?_set_ne hik.symm, List.getElem?_set_self hilt]

/-- A chain that has grown has the slots asked for, and the pool it took from is empty. -/
theorem grow_fits (hs : s.Owns c ls) {i k size base : ℕ} {m : State}
    (hop : (Op.grow i k size base).Ready c s) (hm : s.apply c (.grow i k size base) = .ok m) :
    ∃ self p, m.vars[i]? = some (.chain self) ∧ size ≤ self.size ∧ m.vars[k]? = some (.pool p) ∧
      (p = none ∨ m = s) := by
  obtain ⟨self, p, hi, hk, hfresh⟩ := hop
  have hik : i ≠ k := by
    rintro rfl
    rw [hi] at hk
    cases hk
  obtain ⟨xs, ys, rest, -, -, hself, hpool, hstr, -⟩ := hs.at_two hik hi hk
  obtain rfl : ys = p.toList := hpool
  by_cases hlt : self.size < size
  · rcases growToFitWith_ok hself hstr hlt hfresh with
      ⟨h', self', hgrow, hself', -, -⟩ | ⟨message, hp⟩
    · simp only [State.apply, hi, hk, hgrow, Except.map, Except.ok.injEq] at hm
      obtain ⟨hset, hset'⟩ := getElem?_set_two (.chain self') (.pool none) hik hi hk
      refine ⟨self', none, hm ▸ hset, ?_, hm ▸ hset', .inl rfl⟩
      have hle := c.le_count (size - (xs ++ p.toList).length * c.capacity)
      rw [hself'.2.2, grown, ← List.append_assoc, List.length_append, Nat.add_mul]
      simp only [Config.pages, Config.run, List.length_map, List.length_range]
      omega
    · simp only [State.apply, hi, hk, hp, Except.map] at hm
      cases hm
  · simp only [State.apply, hi, hk, growToFitWith_fits hlt, Except.map, set_of_getElem? hi,
      set_of_getElem? hk, Except.ok.injEq] at hm
    exact ⟨self, p, hm ▸ hi, Nat.le_of_not_lt hlt, hm ▸ hk, .inr hm.symm⟩

/-- A page of 64 bytes with a header of 16 and four slots of 12. -/
def smallPage : Config where
  target := ⟨16, 6, Nat.le_of_ble_eq_true rfl⟩
  kind := ⟨⟨16, 8, ⟨3, rfl⟩, ⟨2, rfl⟩⟩, ⟨12, 4, ⟨2, rfl⟩, ⟨3, rfl⟩⟩, Nat.le_of_ble_eq_true rfl⟩
  layout := ⟨64, 64, 4⟩
  accepted := rfl

end BlockChain

end Block
