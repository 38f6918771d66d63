/-
# Short iterators on one thread

An iterator may yield fewer items than it reports; `push_batch` then marks the slots
that are left with `SKIP`, and a reservation counts such slots like any other.  The
runs of the machine have honest iterators only, so here `push_batch` is called with
any list of items, some of them missing (`anyStep`).

The queue of values of type `T` with skipped slots is simulated by the queue of
values of type `Option T` with honest iterators, where a skipped slot holds the value
`none` (`Sim`): every step of the one is a step of the other (`sim_step`).  So what is
known of one thread on the machine holds here: between two calls the queue is the
list of its slots, and each call has the result of the list operation (`called_spec`).

`pop` reserves one slot and yields what is in it: on a skipped slot it returns
nothing, whatever is behind it.
-/
import Ubq.Mpmc.Progress
import Mathlib.Data.List.ReduceOption

namespace Mpmc

open Function

/-! ## Calls with any iterator -/

section Code

variable {T : Type*}

/-- What the scheduler decides, or a call of `push_batch` on an iterator that reports
the length of `items` and whose `k`-th `next` yields `items[k]`. -/
inductive Choice (T : Type*)
  | act (a : Act T)
  | push (items : List (Option T))

/-- A step of the queue over `T`, pushes included. -/
def anyStep (cfg : Config) (t : Tid) (c : Choice T) (s : Shared T) (pc : Pc T) :
    Option (Shared T × Pc T) :=
  match c, pc with
  | .push items, .idle =>
    if items.isEmpty then some (ret s t (.pushBatch items.reduceOption) .pushed)
    else some (s, .pLoad ⟨items, .user items.reduceOption, []⟩)
  | .push _, _ => none
  | .act a, pc => step cfg t a s pc

/-- Runs of thread `t` alone. -/
def AnyRun (cfg : Config) (t : Tid) : Shared T × Pc T → Shared T × Pc T → Prop :=
  Relation.ReflTransGen fun r r' => ∃ c, anyStep cfg t c r.1 r.2 = some r'

end Code

/-! ## The simulation relation -/

section Relation

variable {T : Type*}

/-- A skipped slot is a slot with a missing value. -/
def SlotSim (x : Slot T) (y : Slot (Option T)) : Prop :=
  match x.state with
  | .zero => y.state = .zero
  | .written => y.state = .written ∧ y.value = x.value.map some
  | .skip => y.state = .written ∧ y.value = some none

/-- Two blocks. -/
structure BlockSim (b : Block T) (b' : Block (Option T)) : Prop where
  next : b'.next = b.next
  run : b'.run = b.run
  consumed : b'.consumed = b.consumed
  slots : ∀ i, SlotSim (b.slots i) (b'.slots i)

/-- A finished call and its image: the image takes all it reserves, and what it takes
without the missing values is what the caller gets. -/
inductive CallSim : Tid × Op T × Res T → Tid × Op (Option T) × Res (Option T) → Prop
  | push (t : Tid) (items : List (Option T)) :
      CallSim (t, .pushBatch items.reduceOption, .pushed) (t, .pushBatch items, .pushed)
  | pop (t : Tid) (size keep reserved : ℕ) (vs : List (Option T)) :
      CallSim (t, .popBatch size keep, .popped reserved (vs.reduceOption.take keep))
        (t, .popBatch size size, .popped reserved vs)
  | isEmpty (t : Tid) (b : Bool) : CallSim (t, .isEmpty, .answer b) (t, .isEmpty, .answer b)

/-- Two memories. -/
structure MemSim (s : Shared T) (m : Shared (Option T)) : Prop where
  phead : m.phead = s.phead
  chead : m.chead = s.chead
  pool : m.pool = s.pool
  arena : m.arena = s.arena
  linked : m.linked = s.linked
  seen : m.seen = s.seen
  heap : ∀ a, BlockSim (s.heap a) (m.heap a)
  sent : m.log.sent = s.log.sent.map some
  claims : m.log.claims = s.log.claims
  trace : List.Forall₂ CallSim s.trace m.trace

/-- Two pushes. -/
structure PushSim (p : Push T) (p' : Push (Option T)) : Prop where
  items : p'.items = p.items.map some
  blocks : p'.blocks = p.blocks
  ret : ∃ items, p.ret = .user items.reduceOption ∧ p'.ret = .user items

/-- Two walks of a push. -/
structure WalkSim (w : PushWalk T) (w' : PushWalk (Option T)) : Prop where
  p : PushSim w.p w'.p
  phead : w'.phead = w.phead
  root : w'.root = w.root
  remaining : w'.remaining = w.remaining
  block : w'.block = w.block
  index : w'.index = w.index

/-- Two fills. -/
structure FillSim (f : Fill T) (f' : Fill (Option T)) : Prop where
  p : PushSim f.p f'.p
  done : f'.done = f.done
  block : f'.block = f.block
  index : f'.index = f.index

/-- The image of a claim takes all its values. -/
def Pop.all (q : Pop) : Pop := { q with keep := q.size }

/-- The walk of the pop that keeps all. -/
def PopWalk.all (w : PopWalk) : PopWalk := { w with q := w.q.all }

/-- Two iterators. -/
structure IterSim (it : Iter T) (it' : Iter (Option T)) : Prop where
  size : it'.size = it.size
  keep : it'.keep = it.size
  reserved : it'.reserved = it.reserved
  base : it'.base = it.base
  block : it'.block = it.block
  index : it'.index = it.index
  len : it'.len = it.len
  pending : it'.pending = it.pending
  out : it.out = it'.out.reduceOption

/-- The program counters a lone thread comes to. -/
inductive PcSim : Pc T → Pc (Option T) → Prop
  | idle : PcSim .idle .idle
  | pLoad {p p'} (h : PushSim p p') : PcSim (.pLoad p) (.pLoad p')
  | pInitSwap {p p'} (h : PushSim p p') : PcSim (.pInitSwap p) (.pInitSwap p')
  | pInitAlloc {p p'} (h : PushSim p p') : PcSim (.pInitAlloc p) (.pInitAlloc p')
  | pInitCas {p p'} (h : PushSim p p') (root) : PcSim (.pInitCas p root) (.pInitCas p' root)
  | pInitStore {p p'} (h : PushSim p p') (root) :
      PcSim (.pInitStore p root) (.pInitStore p' root)
  | pReload {p p'} (h : PushSim p p') : PcSim (.pReload p) (.pReload p')
  | pSwap {p p'} (h : PushSim p p') (hd need) : PcSim (.pSwap p hd need) (.pSwap p' hd need)
  | pAlloc {p p'} (h : PushSim p p') (hd need) : PcSim (.pAlloc p hd need) (.pAlloc p' hd need)
  | pCas {p p'} (h : PushSim p p') (hd) : PcSim (.pCas p hd) (.pCas p' hd)
  | pNext {w w'} (h : WalkSim w w') : PcSim (.pNext w) (.pNext w')
  | pLink {w w'} (h : WalkSim w w') : PcSim (.pLink w) (.pLink w')
  | pStore {w w'} (h : WalkSim w w') (next) : PcSim (.pStore w next) (.pStore w' next)
  | pWait {f f'} (h : FillSim f f') (hlt : f.done < f.p.items.length) : PcSim (.pWait f) (.pWait f')
  | pWrite {f f'} (h : FillSim f f') (hlt : f.done < f.p.items.length) (next) :
      PcSim (.pWrite f next) (.pWrite f' next)
  | pDrop {p p'} (h : PushSim p p') : PcSim (.pDrop p) (.pDrop p')
  | cLoad0 (size keep) : PcSim (.cLoad0 size keep) (.cLoad0 size size)
  | cReload (q) : PcSim (.cReload q) (.cReload q.all)
  | cPhead (q hd) : PcSim (.cPhead q hd) (.cPhead q.all hd)
  | cCas (q hd new) : PcSim (.cCas q hd new) (.cCas q.all hd new)
  | cPost (q hd new) : PcSim (.cPost q hd new) (.cPost q.all hd new)
  | cWalk (q hd) : PcSim (.cWalk q hd) (.cWalk q.all hd)
  | cNext (w) : PcSim (.cNext w) (.cNext w.all)
  | cStoreP (w) : PcSim (.cStoreP w) (.cStoreP w.all)
  | cStoreN (w) : PcSim (.cStoreN w) (.cStoreN w.all)
  | iRead {it it'} (h : IterSim it it') : PcSim (.iRead it) (.iRead it')
  | iNext {it it'} (h : IterSim it it') : PcSim (.iNext it) (.iNext it')
  | iConsume {it it'} (h : IterSim it it') (a) : PcSim (.iConsume it a) (.iConsume it' a)
  | iReset {it it'} (h : IterSim it it') (a) : PcSim (.iReset it a) (.iReset it' a)
  | iPool {it it'} (h : IterSim it it') (a) : PcSim (.iPool it a) (.iPool it' a)
  | iFree {it it'} (h : IterSim it it') (a) : PcSim (.iFree it a) (.iFree it' a)
  | eLoad : PcSim .eLoad .eLoad
  | eSpin (hd) : PcSim (.eSpin hd) (.eSpin hd)

/-- A state and its image. -/
def Sim (r : Shared T × Pc T) (r' : Shared (Option T) × Pc (Option T)) : Prop :=
  MemSim r.1 r'.1 ∧ PcSim r.2 r'.2

end Relation

variable {T : Type*} {cfg : Config} {t : Tid} {s : Shared T} {m : Shared (Option T)}
variable {pc : Pc T} {pc' : Pc (Option T)} {b : Block T} {b' : Block (Option T)} {op : Op T}
  {res : Res T} {p : Push T} {p' : Push (Option T)} {o : Origin T} {q : List T}

/-! ## Memory -/

/-- Two functions that are related stay so when one entry of both changes. -/
theorem update_rel {α β : Type*} {R : α → β → Prop} {f : ℕ → α} {g : ℕ → β}
    (h : ∀ i, R (f i) (g i)) {x : α} {y : β} (hx : R x y) (j i : ℕ) :
    R (update f j x i) (update g j y i) := by
  by_cases hi : i = j
  · subst hi
    rwa [update_self, update_self]
  · rw [update_of_ne hi, update_of_ne hi]
    exact h i

theorem MemSim.modBlock (h : MemSim s m) (a : Addr) {f : Block T → Block T}
    {f' : Block (Option T) → Block (Option T)} (hf : BlockSim (f (s.heap a)) (f' (m.heap a))) :
    MemSim (s.modBlock a f) (m.modBlock a f') := by
  exact { h with heap := update_rel h.heap hf a }

theorem BlockSim.setNext (h : BlockSim b b')
    (p : Option Addr) : BlockSim (b.setNext p) (b'.setNext p) :=
  ⟨rfl, h.run, h.consumed, h.slots⟩

theorem BlockSim.addConsumed (h : BlockSim b b') (n : ℕ) :
    BlockSim (b.addConsumed n) (b'.addConsumed n) := by
  refine ⟨h.next, h.run, ?_, h.slots⟩
  show b'.consumed + n = b.consumed + n
  rw [h.consumed]

theorem BlockSim.reset (h : BlockSim b b') : BlockSim b.reset b'.reset :=
  ⟨rfl, h.run, rfl, fun _ => rfl⟩

theorem BlockSim.setSlot (h : BlockSim b b') (i : ℕ)
    {x : Slot T} {y : Slot (Option T)} (hx : SlotSim x y) :
    BlockSim (b.setSlot i x) (b'.setSlot i y) :=
  ⟨h.next, h.run, h.consumed, update_rel h.slots hx i⟩

/-- A missing item is a skip here and a written `none` there. -/
theorem put_sim (x : Slot T) (y : Slot (Option T)) (v : Option T) :
    SlotSim (x.put v) (y.put (some v)) := by
  cases v with
  | none => exact ⟨rfl, rfl⟩
  | some v => exact ⟨rfl, rfl⟩

theorem blockNew_sim (next : Option Addr) (run : Option ℕ) :
    BlockSim (Block.new next run : Block T) (Block.new next run) :=
  ⟨rfl, rfl, rfl, fun _ => rfl⟩

section

variable (h : MemSim s m)

include h

theorem MemSim.newChain (as : List Addr) : MemSim (s.newChain as) (m.newChain as) := by
  unfold Shared.newChain
  split
  · rename_i a
    exact { h with arena := by rw [h.arena], heap := update_rel h.heap (blockNew_sim _ _) a }
  · refine { h with arena := by rw [h.arena], heap := fun b => ?_ }
    dsimp only
    rw [h.arena]
    split
    · exact blockNew_sim _ _
    · exact h.heap b

theorem MemSim.give (l l' : List Addr) :
    MemSim (s.give l l').1 (m.give l l').1 ∧ (s.give l l').2 = (m.give l l').2 := by
  unfold Shared.give
  split
  · dsimp only
    exact ⟨h.modBlock _ ((h.heap _).setNext _), rfl⟩
  · exact ⟨h, rfl⟩

theorem MemSim.free (a : Addr) : MemSim (s.free cfg a) (m.free cfg a) := by
  refine { h with arena := ?_ }
  unfold Shared.free
  dsimp only
  rw [(h.heap a).run, h.arena]

theorem MemSim.ret {op' : Op (Option T)}
    {res' : Res (Option T)} (hc : CallSim (t, op, res) (t, op', res')) :
    Sim (ret s t op res) (ret m t op' res') := by
  refine ⟨{ h with trace := ?_ }, .idle⟩
  exact List.rel_append h.trace (.cons hc .nil)

theorem MemSim.see : MemSim (see s t) (see m t) := by
  refine { h with seen := ?_ }
  show update m.seen t _ = update s.seen t _
  rw [h.seen, h.chead, h.linked]

theorem MemSim.place_eq (hd : Head) : place cfg m hd = place cfg s hd := by
  unfold place
  rw [h.linked]

theorem MemSim.claimed (hd : Head) (p n : ℕ) :
    MemSim { s with chead := hd, log := s.log.claim t p n }
      { m with chead := hd, log := m.log.claim t p n } := by
  refine { h with chead := rfl, claims := ?_ }
  show m.log.claims ++ _ = s.log.claims ++ _
  rw [h.claims]

end

/-! ## Straight-line pieces -/

theorem PushSim.length (h : PushSim p p') : p'.items.length = p.items.length := by
  rw [h.items, List.length_map]

theorem pushLoop_sim (h : PushSim p p') (hd : Head) :
    PcSim (pushLoop cfg p hd) (pushLoop cfg p' hd) := by
  have hneed : pushNeed cfg p' hd = pushNeed cfg p hd := by
    unfold pushNeed
    rw [h.length]
  unfold pushLoop
  rw [hneed, h.blocks]
  split
  · exact .pReload h
  · split
    · exact .pSwap h _ _
    · exact .pCas h _

theorem grown_sim (h : PushSim p p') (hd : Head) (need : ℕ) :
    PcSim (grown cfg p hd need) (grown cfg p' hd need) := by
  unfold grown
  rw [h.blocks]
  split
  · exact .pAlloc h _ _
  · exact .pCas h _

theorem fillOn_sim {f : Fill T} {f' : Fill (Option T)} (h : FillSim f f') :
    PcSim (fillOn cfg f) (fillOn cfg f') := by
  unfold fillOn
  rw [h.p.length, h.done, h.index]
  split
  · rename_i hlt
    split
    · exact .pWait h hlt
    · exact .pWrite h hlt _
  · exact .pDrop h.p

theorem walkOn_sim {w : PushWalk T} {w' : PushWalk (Option T)} (h : WalkSim w w')
    (next : Option Addr) : PcSim (walkOn cfg w next) (walkOn cfg w' next) := by
  unfold walkOn
  rw [h.remaining, h.index]
  split
  · exact .pStore h _
  · exact .pNext ⟨h.p, h.phead, h.root, rfl, rfl, rfl⟩

theorem popLoop_sim (q : Pop) (hd : Head) :
    PcSim (popLoop cfg q hd : Pc T) (popLoop cfg q.all hd) := by
  unfold popLoop popLoopWith
  split
  · exact .cReload q
  · split
    · exact .cCas q _ _
    · exact .cPhead q _

theorem popWalkOn_sim (w : PopWalk) (next : Option Addr) :
    PcSim (popWalkOn cfg w next : Pc T) (popWalkOn cfg w.all next) := by
  unfold popWalkOn
  show PcSim _ (if w.remaining < cfg.bl - w.index then _ else _)
  split
  · exact .cStoreN w
  · exact .cNext _

section

variable (h : MemSim s m)

include h

/-- Between two segments; the image has not yielded more than its call asked for. -/
theorem iterOn_sim {it : Iter T} {it' : Iter (Option T)} (hit : IterSim it it')
    (hout : it'.out.length ≤ it'.size) : Sim (iterOn s t it) (iterOn m t it') := by
  unfold iterOn
  rw [hit.len]
  split
  · rw [hit.out, hit.size, hit.keep, hit.reserved, ← hit.size, List.take_of_length_le hout]
    exact h.ret (.pop t _ _ _ _)
  · exact ⟨h, .iRead hit⟩

theorem iterStart_sim (q : Pop) (hd : Head) (len : ℕ) :
    IterSim (iterStart cfg s q hd len) (iterStart cfg m q.all hd len) :=
  ⟨rfl, rfl, rfl, h.place_eq hd, rfl, rfl, rfl, rfl, rfl⟩

theorem started_sim {s₀ : Shared T} {m₀ : Shared (Option T)} (h₀ : MemSim s₀ m₀)
    (q : Pop) (hd : Head) (len : ℕ) :
    Sim (iterOn s t (iterStart cfg s₀ q hd len)) (iterOn m t (iterStart cfg m₀ q.all hd len)) :=
  iterOn_sim h (iterStart_sim h₀ q hd len) (Nat.zero_le _)

theorem claimedOn_sim (q : Pop) (hd new : Head) :
    Sim (claimedOn cfg s t q hd new) (claimedOn cfg m t q.all hd new) := by
  unfold claimedOn
  split
  · exact ⟨h, .cWalk q hd⟩
  · exact started_sim h h q hd q.len

theorem iterRead_sim {it : Iter T} {it' : Iter (Option T)} (hit : IterSim it it')
    (a : Addr) : Sim (iterRead cfg s it a) (iterRead cfg m it' a) := by
  have hadv : IterSim
    { it with index := it.index + 1, len := it.len - 1, pending := it.pending + 1 }
      { it' with index := it'.index + 1, len := it'.len - 1, pending := it'.pending + 1 } :=
    { hit with
      index := congrArg (· + 1) hit.index
      len := congrArg (· - 1) hit.len
      pending := congrArg (· + 1) hit.pending }
  dsimp only [iterRead]
  rw [hit.index, hit.len]
  rw [hit.index, hit.len] at hadv
  split
  · exact ⟨h, .iNext hadv⟩
  · split
    · exact ⟨h, .iConsume hadv a⟩
    · exact ⟨h, .iRead hadv⟩

end

/-! ## Every step -/

/-- What is known of the image: its next step does not fault, it never has to repair a
claim, and its iterator yields no more than was asked for. -/
structure Tame (cfg : Config) (t : Tid) (m : Shared (Option T)) (pc : Pc (Option T)) : Prop where
  next : ∀ act r, step cfg t act m pc = some r → ∃ o, SoloAt cfg o r.1 r.2
  post : ∀ q hd new, pc = .cPost q hd new → ¬ (m.phead.block = hd.block ∧ m.phead.index < new.index)
  out : ∀ it a, pc = .iConsume it a ∨ pc = .iPool it a ∨ pc = .iFree it a →
    it.out.length ≤ it.size

/-- A dereference that does not fault in the image does not fault. -/
theorem deref_sim {p : Option Addr} {k : Addr → Shared T × Pc T}
    {k' : Addr → Shared (Option T) × Pc (Option T)}
    (hnext : ∀ r', deref m p k' = some r' → ∃ o, SoloAt cfg o r'.1 r'.2)
    (hk : ∀ a, (∃ o, SoloAt cfg o (k' a).1 (k' a).2) → Sim (k a) (k' a)) :
    Both Sim (deref s p k) (deref m p k') := by
  cases p with
  | none =>
    obtain ⟨_, hfault⟩ := hnext (m, .fault) rfl
    exact hfault.elim
  | some a => exact hk a (hnext _ rfl)

/-- A call that finds nothing. -/
theorem CallSim.popNil (t : Tid) (size keep : ℕ) :
    CallSim (t, .popBatch size keep, .popped 0 ([] : List T))
      (t, .popBatch size size, .popped 0 []) := by
  have hc := CallSim.pop t size keep 0 ([] : List (Option T))
  rwa [show ([] : List (Option T)).reduceOption = [] from rfl, List.take_nil] at hc

theorem push_sim (cfg : Config) (t : Tid) (h : MemSim s m) (items : List (Option T)) :
    Both Sim (anyStep cfg t (.push items) s .idle)
      (step cfg t (.call (.pushBatch items)) m .idle) := by
  simp only [anyStep, step, stepWith]
  split
  · exact h.ret (.push t items)
  · exact ⟨h, .pLoad ⟨rfl, rfl, items, rfl, rfl⟩⟩

section

variable (h : MemSim s m)

include h

theorem call_sim (op : Op T) :
    ∃ act, Both Sim (step cfg t (.call op) s .idle) (step cfg t act m .idle) := by
  cases op with
  | pushBatch items =>
    have hred : (items.map some).reduceOption = items := by
      simp [List.reduceOption]
    refine ⟨.call (.pushBatch (items.map some)), ?_⟩
    have hsim := push_sim cfg t h (items.map some)
    simp only [anyStep, hred, List.isEmpty_map] at hsim
    exact hsim
  | popBatch size keep =>
    refine ⟨.call (.popBatch size size), ?_⟩
    simp only [step, stepWith]
    split
    · exact h.ret (.popNil t size keep)
    · exact ⟨h, .cLoad0 size keep⟩
  | isEmpty => exact ⟨.call .isEmpty, h, .eLoad⟩

theorem alloc_sim (hpc : PcSim pc pc')
    (as : List Addr) : Both Sim (step cfg t (.alloc as) s pc) (step cfg t (.alloc as) m pc') := by
  cases hpc with
  | pInitAlloc hp =>
    simp only [step, stepWith, h.arena]
    split
    · split
      · trivial
      · rename_i a _
        exact ⟨h.newChain [a], .pInitCas hp a⟩
    · trivial
  | pAlloc hp hd need =>
    simp only [step, stepWith, h.arena, hp.blocks]
    split
    · obtain ⟨hmem, heq⟩ := (h.newChain as).give _ as
      refine ⟨hmem, ?_⟩
      apply PcSim.pCas
      exact ⟨hp.items, heq.symm, hp.ret⟩
    · trivial
  | _ => trivial

theorem spurious_sim (hpc : PcSim pc pc') :
    Both Sim (step cfg t .spurious s pc) (step cfg t .spurious m pc') := by
  cases hpc with
  | pCas hp hd =>
    simp only [step, stepWith, h.phead]
    exact ⟨h, pushLoop_sim hp _⟩
  | cCas q hd new =>
    simp only [step, stepWith, h.chead]
    exact ⟨h.see, popLoop_sim q _⟩
  | _ => trivial

/-- The steps of `push_batch` and `is_empty`. -/
theorem producer_sim (hpc : PcSim pc pc')
    (htame : Tame cfg t m pc') (hpop : pc.popping = false) :
    Both Sim (step cfg t .run s pc) (step cfg t .run m pc') := by
  have hnext := htame.next .run
  cases hpc with
  | pLoad hp =>
    simp only [step, stepWith, h.phead]
    split
    · exact ⟨h, .pInitSwap hp⟩
    · exact ⟨h, pushLoop_sim hp _⟩
  | pInitSwap hp =>
    simp only [step, stepWith, h.pool]
    split
    · exact ⟨h, .pInitAlloc hp⟩
    · exact ⟨{ h with pool := rfl }, .pInitCas hp _⟩
  | pInitCas hp root =>
    simp only [step, stepWith, h.phead, h.linked]
    split
    · exact ⟨{ h with phead := rfl, linked := rfl }, .pInitStore hp _⟩
    · refine ⟨h, ?_⟩
      apply pushLoop_sim
      exact ⟨hp.items, rfl, hp.ret⟩
  | pInitStore hp root => exact ⟨{ h with chead := rfl }, pushLoop_sim hp _⟩
  | pReload hp =>
    simp only [step, stepWith, h.phead]
    exact ⟨h, pushLoop_sim hp _⟩
  | pSwap hp hd need =>
    simp only [step, stepWith, h.pool, hp.blocks]
    split
    · exact ⟨h, grown_sim hp _ _⟩
    · rename_i a _
      obtain ⟨hmem, heq⟩ :=
        MemSim.give (s := { s with pool := none }) (m := { m with pool := none })
        { h with pool := rfl } _ [a]
      refine ⟨hmem, ?_⟩
      apply grown_sim
      exact ⟨hp.items, heq.symm, hp.ret⟩
  | pCas hp hd =>
    simp only [step, stepWith, h.phead]
    split
    · refine ⟨?_, ?_⟩
      · refine { h with phead := ?_, sent := ?_ }
        · show (pushHead cfg _ hd).word cfg = (pushHead cfg _ hd).word cfg
          unfold pushHead
          rw [hp.length]
        · show (m.log.reserve t _ _).sent = (s.log.reserve t _ _).sent.map some
          rw [Log.reserve_sent, Log.reserve_sent, List.map_append, h.sent, hp.items]
      · show PcSim (if (pushHead cfg _ hd).index = cfg.bl then _ else _)
          (if (pushHead cfg _ hd).index = cfg.bl then _ else _)
        unfold pushHead
        rw [hp.length]
        split
        · exact .pNext ⟨⟨hp.items, rfl, hp.ret⟩, rfl, hp.blocks, rfl, rfl, rfl⟩
        · exact fillOn_sim ⟨hp, rfl, rfl, rfl⟩
    · exact ⟨h, pushLoop_sim hp _⟩
  | pNext hw =>
    simp only [step, stepWith, hw.block] at hnext ⊢
    refine deref_sim hnext fun a _ => ?_
    rw [(h.heap a).next]
    cases (s.heap a).next with
    | none => exact ⟨h, .pLink hw⟩
    | some n => exact ⟨h, walkOn_sim hw _⟩
  | @pLink w w' hw =>
    simp only [step, stepWith, hw.block, hw.root, h.linked] at hnext ⊢
    refine deref_sim hnext fun a _ => ⟨?_, ?_⟩
    · have hmod :
          MemSim (s.modBlock a (·.setNext w.root.head?)) (m.modBlock a (·.setNext w.root.head?)) :=
        h.modBlock a ((h.heap a).setNext _)
      exact { hmod with linked := rfl }
    · apply walkOn_sim
      exact { hw with root := rfl, block := rfl }
  | pStore hw next =>
    refine ⟨{ h with phead := ?_ }, ?_⟩
    · rw [hw.block, hw.index, hw.remaining]
    · rw [hw.phead]
      exact fillOn_sim ⟨⟨hw.p.items, hw.root, hw.p.ret⟩, rfl, rfl, rfl⟩
  | pWait hf hlt =>
    simp only [step, stepWith, hf.block] at hnext ⊢
    refine deref_sim hnext fun a _ => ?_
    rw [(h.heap a).next]
    cases (s.heap a).next with
    | none => exact ⟨h, .pWait hf hlt⟩
    | some n => exact ⟨h, .pWrite hf hlt _⟩
  | @pWrite f f' hf hlt next =>
    simp only [step, stepWith, hf.block] at hnext ⊢
    refine deref_sim hnext fun a _ => ⟨?_, ?_⟩
    · dsimp only
      apply h.modBlock
      have hitem : (f'.p.items[f'.done]?).join = some (f.p.items[f.done]?).join := by
        rw [hf.p.items, hf.done, List.getElem?_map, List.getElem?_eq_getElem hlt]
        rfl
      rw [hitem, hf.index]
      exact (h.heap a).setSlot _ (put_sim _ _ _)
    · apply fillOn_sim
      unfold Fill.advance
      rw [hf.index]
      split
      · exact ⟨hf.p, congrArg (· + 1) hf.done, rfl, rfl⟩
      · exact ⟨hf.p, congrArg (· + 1) hf.done, hf.block, rfl⟩
  | pDrop hp =>
    simp only [step, stepWith, hp.blocks]
    split
    · obtain ⟨items, hr, hr'⟩ := hp.ret
      rw [hr, hr']
      exact h.ret (.push t items)
    · exact ⟨h.free _, .pDrop ⟨hp.items, rfl, hp.ret⟩⟩
  | eLoad =>
    simp only [step, stepWith, h.phead]
    split
    · exact h.ret (.isEmpty t true)
    · exact ⟨h, .eSpin _⟩
  | eSpin hd =>
    simp only [step, stepWith, h.chead]
    split
    · exact ⟨h, .eSpin _⟩
    · exact h.ret (.isEmpty t _)
  | idle | pInitAlloc | pAlloc => trivial
  | _ => simp [Pc.popping] at hpop

/-- The steps of `pop_batch` and of its iterator. -/
theorem consumer_sim (hpc : PcSim pc pc')
    (htame : Tame cfg t m pc') (hpop : pc.popping = true) :
    Both Sim (step cfg t .run s pc) (step cfg t .run m pc') := by
  have hnext := htame.next .run
  cases hpc with
  | cLoad0 size keep =>
    simp only [step, stepWith, h.chead]
    split
    · exact h.ret (.popNil t size keep)
    · exact ⟨h, .cReload ⟨size, keep, size⟩⟩
  | cReload q =>
    refine ⟨h.see, ?_⟩
    rw [h.chead]
    exact popLoop_sim q _
  | cPhead q hd =>
    have hlen : q.all.len = q.len := rfl
    simp only [step, stepWith, h.phead, hlen]
    split
    · split
      · exact h.ret (.popNil t q.size q.keep)
      · exact ⟨h, .cCas { q with len := _ } _ _⟩
    · exact ⟨h, .cCas q _ _⟩
  | cCas q hd new =>
    simp only [step, stepWith, h.chead, h.place_eq]
    split
    · have hclaimed := h.claimed (t := t) (new.word cfg) (place cfg s hd) (new.index - hd.index)
      split
      · exact claimedOn_sim hclaimed q hd new
      · exact ⟨hclaimed, .cPost q hd new⟩
    · exact ⟨h.see, popLoop_sim q _⟩
  | cPost q hd new =>
    have hnot := htame.post q.all hd new rfl
    rw [h.phead] at hnot
    simp only [step, stepWith, h.phead, if_neg hnot]
    exact claimedOn_sim h q hd new
  | cWalk q hd =>
    refine ⟨h, ?_⟩
    rw [h.phead]
    exact .cNext ⟨q, hd, s.phead, hd.block, hd.index, q.len⟩
  | cNext w =>
    simp only [step, stepWith] at hnext ⊢
    refine deref_sim hnext fun a hsolo => ⟨h, ?_⟩
    show PcSim _ (if w.phead.block = w.block then
      if w.phead.index = cfg.bl then .cSpin w.all else .cStoreP w.all
      else popWalkOn cfg w.all (m.heap a).next)
    split
    · rename_i hb
      split
      · -- a lone producer never holds the head locked
        rename_i hi
        rw [if_pos (show w.all.phead.block = w.all.block from hb),
          if_pos (show w.all.phead.index = cfg.bl from hi)] at hsolo
        obtain ⟨_, hspin⟩ := hsolo
        exact hspin.elim
      · exact .cStoreP w
    · rw [(h.heap a).next]
      exact popWalkOn_sim w _
  | cStoreP w | cStoreN w =>
    simp only [step, stepWith, settled, h.place_eq]
    exact started_sim (h.claimed _ _ _) h w.q w.chead _
  | @iRead it it' hit =>
    simp only [step, stepWith, hit.block, hit.index, h.linked] at hnext ⊢
    refine deref_sim hnext fun a hsolo => ?_
    have hslot := (h.heap a).slots it.index
    generalize hx : (s.heap a).slots it.index = x at hslot ⊢
    generalize (m.heap a).slots it.index = y at hslot hsolo ⊢
    unfold SlotSim at hslot
    cases hst : x.state with
    | zero =>
      rw [hst] at hslot
      dsimp only at hslot
      rw [hslot]
      exact ⟨h, .iRead hit⟩
    | skip =>
      rw [hst] at hslot
      obtain ⟨hst', hv'⟩ := hslot
      rw [hst', hv']
      -- the image marks its slot as read, which is still a skipped one here
      have hread : SlotSim x ⟨.written, some none, true⟩ := by
        unfold SlotSim
        rw [hst]
        exact ⟨rfl, rfl⟩
      have hblock := (h.heap a).setSlot it.index hread
      rw [← hx, Block.setSlot, update_eq_self] at hblock
      have hheap := update_rel h.heap hblock a
      rw [update_eq_self] at hheap
      refine iterRead_sim ?_ ?_ a
      · exact { h with heap := hheap, sent := h.sent, claims := h.claims }
      · refine { hit with block := rfl, index := rfl, out := ?_ }
        rw [List.reduceOption_append, List.reduceOption_singleton, hit.out]
        exact (List.append_nil _).symm
    | written =>
      rw [hst] at hslot
      obtain ⟨hst', hv'⟩ := hslot
      cases hv : x.value with
      | none =>
        rw [hv] at hv'
        rw [hst', hv'] at hsolo
        obtain ⟨_, hfault⟩ := hsolo
        exact hfault.elim
      | some v =>
        rw [hv] at hv'
        rw [hst', hv']
        have hread :
            SlotSim ⟨.written, some v, true⟩ (⟨.written, some (some v), true⟩ : Slot (Option T)) :=
          ⟨rfl, rfl⟩
        have hheap := update_rel h.heap ((h.heap a).setSlot it.index hread) a
        refine iterRead_sim ?_ ?_ a
        · exact { h with heap := hheap, sent := h.sent, claims := h.claims }
        · refine { hit with block := rfl, index := rfl, out := ?_ }
          rw [List.reduceOption_append, List.reduceOption_singleton, hit.out]
          rfl
  | iNext hit =>
    simp only [step, stepWith, hit.block] at hnext ⊢
    refine deref_sim hnext fun a _ => ⟨h, ?_⟩
    apply PcSim.iConsume
    exact { hit with block := (h.heap a).next, index := rfl }
  | @iConsume it it' hit a =>
    have hout := htame.out it' a (.inl rfl)
    have hmem : MemSim (s.modBlock a (·.addConsumed it.pending))
        (m.modBlock a (·.addConsumed it.pending)) :=
      h.modBlock a ((h.heap a).addConsumed it.pending)
    have hit₀ : IterSim { it with pending := 0 } { it' with pending := 0 } :=
      { hit with pending := rfl }
    simp only [step, stepWith, hit.pending, (h.heap a).consumed, (h.heap a).run]
    split
    · split
      · exact ⟨hmem, .iReset hit₀ a⟩
      · exact ⟨hmem, .iFree hit₀ a⟩
    · exact iterOn_sim hmem hit₀ hout
  | iReset hit a =>
    exact ⟨h.modBlock a (h.heap a).reset, .iPool hit a⟩
  | @iPool it it' hit a =>
    have hout := htame.out it' a (.inr (.inl rfl))
    simp only [step, stepWith, h.pool]
    split
    · refine iterOn_sim ?_ hit hout
      exact { h with pool := rfl }
    · exact ⟨h, .iFree hit a⟩
  | @iFree it it' hit a =>
    have hout := htame.out it' a (.inr (.inr rfl))
    exact iterOn_sim (h.free a) hit hout
  | _ => simp [Pc.popping] at hpop

end

/-- **Every step has its image.** -/
theorem sim_step (h : Sim (s, pc) (m, pc'))
    (htame : Tame cfg t m pc') (c : Choice T) :
    ∃ act, Both Sim (anyStep cfg t c s pc) (step cfg t act m pc') := by
  obtain ⟨hmem, hpc⟩ := h
  cases c with
  | push items =>
    refine ⟨.call (.pushBatch items), ?_⟩
    cases hpc with
    | idle => exact push_sim cfg t hmem items
    | _ => trivial
  | act a =>
    cases a with
    | call op =>
      cases hpc with
      | idle => exact call_sim hmem op
      | _ => exact ⟨.run, by cases op <;> trivial⟩
    | run =>
      refine ⟨.run, ?_⟩
      cases hpop : pc.popping with
      | false => exact producer_sim hmem hpc htame hpop
      | true => exact consumer_sim hmem hpc htame hpop
    | spurious => exact ⟨.spurious, spurious_sim hmem hpc⟩
    | alloc as => exact ⟨.alloc as, alloc_sim hmem hpc as⟩

/-! ## Every run -/

theorem Lone.tame {o : Origin (Option T)} {c : Conf (Option T)} (h : Lone cfg t o c) :
    Tame cfg t c.sh (c.pc t) := by
  obtain ⟨g, hI, hl, _⟩ := h.good
  refine ⟨fun act r hs => ?_, fun q hd new hpc => ?_, fun it a hpc => ?_⟩
  · have hmoves : (system (Option T) cfg).Moves t c ⟨r.1, update c.pc t r.2⟩ :=
      ⟨r.1, r.2, ⟨act, hs⟩, rfl⟩
    have hsolo := (h.moves hmoves).solo
    rw [show (⟨r.1, update c.pc t r.2⟩ : Conf (Option T)).pc t = r.2 from
      update_self _ _ _] at hsolo
    exact ⟨o, hsolo⟩
  · rw [hpc] at hl
    exact (cPost_ok hI hl).1
  · have hit : ∀ {it : Iter (Option T)}, IterOk t c.sh it → it.out.length ≤ it.size := by
      intro it hit
      have := hit.count
      have := hit.le
      omega
    rcases hpc with hpc | hpc | hpc <;> rw [hpc] at hl
    · obtain ⟨k, e, hc, _⟩ := hl.here
      exact hit hc.iter
    · exact hit hl.here.2.2.2.2.1
    · exact hit hl.here.2.2.2.2.1

/-- Every run has an image on the machine, from any state and its image on. -/
theorem sim_run {r r₁ : Shared T × Pc T} {o : Origin (Option T)} {c : Conf (Option T)}
    (h : Sim r (c.sh, c.pc t)) (hc : Lone cfg t o c) (hrun : AnyRun cfg t r r₁) :
    ∃ c₁, Solo cfg t c c₁ ∧ Lone cfg t o c₁ ∧ Sim r₁ (c₁.sh, c₁.pc t) := by
  induction hrun with
  | refl => exact ⟨c, .refl, hc, h⟩
  | tail _ hs ih =>
    obtain ⟨c₁, hsolo, hlone, hsim⟩ := ih
    obtain ⟨ch, hs⟩ := hs
    obtain ⟨act, hboth⟩ := sim_step hsim hlone.tame ch
    obtain ⟨r', hs', hsim'⟩ := hboth.of hs
    have hmoves : (system (Option T) cfg).Moves t c₁ ⟨r'.1, update c₁.pc t r'.2⟩ :=
      ⟨r'.1, r'.2, ⟨act, hs'⟩, rfl⟩
    refine ⟨_, hsolo.tail hmoves, hlone.moves hmoves, ?_⟩
    show Sim _ (r'.1, update c₁.pc t r'.2 t)
    rwa [update_self]

theorem sim_start (t : Tid) : Sim ((Shared.new : Shared T), .idle)
    ((system (Option T) cfg).start.sh, (system (Option T) cfg).start.pc t) :=
  ⟨⟨rfl, rfl, rfl, rfl, rfl, rfl, fun _ => blockNew_sim _ _, rfl, rfl, .nil⟩, .idle⟩

/-! ## One call -/

theorem PcSim.of_idle {pc : Pc (Option T)} (h : PcSim (.idle : Pc T) pc) : pc = .idle := by
  cases h
  rfl

/-- The image's queue is the list of the slots. -/
theorem MemSim.contents (h : MemSim s m) : m.contents = s.contents.map some := by
  unfold Shared.contents Log.claimedLen
  rw [h.sent, h.claims, List.map_drop]

theorem Behaves.extends {tr : List (Tid × Op T × Res T)}
    (h : Behaves o tr q) : o.trace <+: tr := by
  induction h with
  | start => exact List.prefix_refl _
  | call t op _ ih => exact ih.trans (List.prefix_append _ _)

theorem Behaves.none (h : Behaves o o.trace q) : q = o.queue := by
  generalize htr : o.trace = tr at h
  cases h with
  | start => rfl
  | call t op h =>
    have hle := h.extends.length_le
    rw [htr, List.length_append, List.length_singleton] at hle
    omega

/-- After one call. -/
theorem Behaves.one
    (h : Behaves o (o.trace ++ [(t, op, res)]) q) : op.spec o.queue = (res, q) := by
  generalize htr : o.trace ++ [(t, op, res)] = tr at h
  cases h with
  | start =>
    have := congrArg List.length htr
    simp at this
  | call t' op' h =>
    obtain ⟨rfl, hlast⟩ := List.append_inj' htr rfl
    obtain rfl := h.none
    simp only [List.cons.injEq, Prod.mk.injEq, and_true] at hlast
    obtain ⟨_, rfl, rfl⟩ := hlast
    rfl

/-- Thread `t` has made one call, with the result `res`. -/
def Called (cfg : Config) (t : Tid) (s : Shared T) (op : Op T) (res : Res T) (s' : Shared T) :
    Prop :=
  AnyRun cfg t (s, .idle) (s', .idle) ∧ s'.trace = s.trace ++ [(t, op, res)]

/-- One call on the list `q` of the slots: `pop_batch` counts the skipped ones too. -/
def Op.slotSpec (q : List (Option T)) : Op T → Res T → List (Option T) → Prop
  | .pushBatch items, res, q' => res = .pushed ∧ ∃ l, l.reduceOption = items ∧ q' = q ++ l
  | .popBatch size keep, res, q' =>
    res = .popped (min size q.length) ((q.take size).reduceOption.take keep) ∧ q' = q.drop size
  | .isEmpty, res, q' => res = .answer q.isEmpty ∧ q' = q

/-- **On one thread, with any iterators, the queue is the list of its slots.** -/
theorem called_spec {s' : Shared T}
    (hs : AnyRun cfg t (Shared.new, .idle) (s, .idle)) (hcall : Called cfg t s op res s') :
    op.slotSpec s.contents res s'.contents := by
  obtain ⟨hrun, htrace⟩ := hcall
  obtain ⟨c, hsolo, hlone, hsim⟩ := sim_run (sim_start t) (rests_start.lone) hs
  have hidle : c.pc t = .idle := hsim.2.of_idle
  have hrests : Rests cfg c s.contents := by
    refine ⟨hlone.calm, fun u => ?_, hsim.1.contents⟩
    by_cases hu : u = t
    · rw [hu, hidle]
    · exact hlone.others u hu
  obtain ⟨c', _, hlone', hsim'⟩ := sim_run hsim hrests.lone hrun
  have hsettled := hlone'.solo
  rw [show c'.pc t = .idle from hsim'.2.of_idle] at hsettled
  obtain ⟨q, hq, hq'⟩ := hsettled
  have hsent : s'.contents = q := by
    have := hsim'.1.contents
    unfold Shared.contents at this
    rw [hq'] at this
    exact (List.map_injective_iff.mpr (Option.some_injective _) this).symm
  -- the image of the call is the only new entry of the image's trace
  obtain ⟨y, hy, htr⟩ : ∃ y, CallSim (t, op, res) y ∧ c'.sh.trace = c.sh.trace ++ [y] := by
    obtain ⟨l, hl⟩ := hq.extends
    have hall := List.forall₂_drop s.trace.length hsim'.1.trace
    rw [htrace, ← hl, hsim.1.trace.length_eq, List.drop_left, ← hsim.1.trace.length_eq,
      List.drop_left] at hall
    cases hall with
    | cons hy hnil =>
      cases hnil
      exact ⟨_, hy, hl.symm⟩
  rw [htr] at hq
  rw [hsent]
  cases hy with
  | push _ items =>
    have := hq.one
    simp only [Op.spec, Prod.mk.injEq] at this
    exact ⟨rfl, items, rfl, this.2.symm⟩
  | pop _ size keep reserved vs =>
    have := hq.one
    simp only [Op.spec, Prod.mk.injEq, Res.popped.injEq] at this
    obtain ⟨⟨rfl, rfl⟩, rfl⟩ := this
    refine ⟨?_, rfl⟩
    rw [List.take_take, Nat.min_self]
  | isEmpty _ b =>
    have := hq.one
    simp only [Op.spec, Prod.mk.injEq, Res.answer.injEq] at this
    obtain ⟨rfl, rfl⟩ := this
    exact ⟨rfl, rfl⟩

/-- Runs the choices. -/
def anyExec (cfg : Config) (t : Tid) : List (Choice T) → Shared T × Pc T →
    Option (Shared T × Pc T)
  | [], r => some r
  | c :: cs, r =>
    match anyStep cfg t c r.1 r.2 with
    | some r' => anyExec cfg t cs r'
    | none => none

theorem anyExec_runs {cs : List (Choice T)} {r r' : Shared T × Pc T}
    (h : anyExec cfg t cs r = some r') : AnyRun cfg t r r' := by
  induction cs generalizing r with
  | nil =>
    cases h
    exact .refl
  | cons c cs ih =>
    rw [anyExec] at h
    cases hs : anyStep cfg t c r.1 r.2 with
    | none => exact absurd h (by rw [hs]; exact nofun)
    | some r₁ =>
      rw [hs] at h
      exact .head ⟨c, hs⟩ (ih h)

/-- One `push_batch` on a new queue with an iterator that reports `items.length`. -/
def firstPush (items : List (Option ℕ)) : List (Choice ℕ) :=
  [.push items, .act .run, .act .run, .act (.alloc [10]), .act .run, .act .run, .act .run] ++
    items.map (fun _ => .act .run) ++ [.act .run]

/-- `push` of a further value into the same block. -/
def nextPush (v : ℕ) : List (Choice ℕ) :=
  [.push [some v], .act .run, .act .run, .act .run, .act .run]

/-- A pop of one slot. -/
def onePop : List (Choice ℕ) := .act (.call (.popBatch 1 1)) :: List.replicate 7 (.act .run)

/-- A call of `is_empty`. -/
def oneIsEmpty : List (Choice ℕ) := [.act (.call .isEmpty), .act .run, .act .run]

end Mpmc
