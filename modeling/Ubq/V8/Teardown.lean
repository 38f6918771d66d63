/-
# Dropping the v8 queue

`Shared.drop` is `UBQ::drop` followed by the drop of the freelist: the chain from
`consumer.block` is popped block by block, then the cached chain.  `Block::drop`
finds the values that are left by the counters alone: slots `consumed..produced`
of every virtual block.

`Books` records what the allocator and the destructors see, during the run and
during the drop.  The main result says that on one thread the books close: with
the queue dropped, what was returned followed by what was dropped is what was
pushed, and the allocator's events are balanced.
-/
import Ubq.V8.Sequential
import Ubq.Account

namespace V8

open Function Interleave

variable {T : Type*} {cfg : Config} {t u : Tid} {s s' : Shared T} {g g' : Ghost T} {pc : Pc T}
  {a : Addr} {act : Act T} {r : Shared T × Pc T}

/-! ## Destructors -/

/-- `Block::drop`: the slots it drops in place; `none` is a slot that was never
initialised. -/
def Block.drops (cfg : Config) (b : Block T) : List (Option T) :=
  (List.range cfg.nv).flatMap fun v =>
    (List.range' (b.vblock v).consumed ((b.vblock v).produced - (b.vblock v).consumed)).map
      (b.slots v)

/-- What the allocator and the destructors have seen. -/
structure Books (T : Type*) where
  events : List Account.Event
  dropped : List (Option T)

/-- `UBQ::with_config` allocates the first block. -/
def Books.new : Books T := ⟨[.alloc 0], []⟩

/-- `OwnedBlock::drop`. -/
def Books.free (cfg : Config) (s : Shared T) (b : Books T) (a : Addr) : Books T :=
  ⟨b.events ++ [.dealloc a], b.dropped ++ (s.heap a).drops cfg⟩

/-- The block that a step obtains from the allocator. -/
def allocatedBy : Act T → Pc T → Option Addr
  | .alloc a, .aAlloc _ _ _ => some a
  | _, _ => none

/-- The `OwnedBlock` that goes out of scope in a step. -/
def freedBy : Act T → Pc T → Option Addr
  | .run, .wDrop w => w.blocks.head?
  | .run, .fDrop blocks _ => blocks.head?
  | .run, .cFree _ _ b => some b
  | _, _ => none

/-- The books after a step. -/
def Books.step (cfg : Config) (act : Act T) (s : Shared T) (pc : Pc T) (b : Books T) : Books T :=
  match allocatedBy act pc, freedBy act pc with
  | some a, _ => { b with events := b.events ++ [.alloc a] }
  | none, some a => b.free cfg s a
  | none, none => b

/-- Run the steps of thread `t` and keep the books. -/
def record (cfg : Config) (t : Tid) :
    List (Act T) → Shared T → Pc T → Books T → Option (Shared T × Pc T × Books T)
  | [], s, pc, b => some (s, pc, b)
  | act :: acts, s, pc, b =>
    match step cfg t act s pc with
    | none => none
    | some (s', pc') => record cfg t acts s' pc' (b.step cfg act s pc)

/-- Pop and drop the blocks of a `BlockList` one by one; `none` if that does not
end in `fuel` rounds.  The walk of `BlockList::from_raw` before it only counts. -/
def dropList (cfg : Config) : ℕ → Shared T → Books T → Option Addr → Option (Shared T × Books T)
  | _, s, b, none => some (s, b)
  | 0, _, _, some _ => none
  | fuel + 1, s, b, some a =>
    dropList cfg fuel ((s.modBlock a (·.setNext none)).dealloc a)
      (b.free cfg (s.modBlock a (·.setNext none)) a) (s.heap a).next

/-- `UBQ::drop`, then `FreeList::drop`; the busy token is not a block. -/
def Shared.drop (cfg : Config) (fuel : ℕ) (s : Shared T) (b : Books T) :
    Option (Shared T × Books T) := do
  let (s', b') ← dropList cfg fuel { s with consumerBlock := none, producerBlock := none } b
    s.consumerBlock
  match s'.freelist with
  | .ptr p => dropList cfg fuel s' b' p
  | .busy => none

/-- The drop ends with the books `b'`. -/
def Drops (cfg : Config) (s : Shared T) (b b' : Books T) : Prop :=
  ∃ n s', ∀ fuel, n ≤ fuel → s.drop cfg fuel b = some (s', b')

/-! ## The allocator during the run -/

theorem addAssign_allocated (s : Shared T) (l l' : List Addr) :
    (s.addAssign l l').1.allocated = s.allocated := by
  unfold Shared.addAssign
  split <;> rfl

theorem resume_allocated (s : Shared T) (ret : AcqRet T) (acc : List Addr) :
    (resume s ret acc).1.allocated = s.allocated := by
  cases ret with
  | first src index block => rfl
  | root src index blocks => rfl
  | more src index block blocks => exact addAssign_allocated s blocks acc

theorem acquire_allocated (s : Shared T) (ret : AcqRet T) (n : ℕ) :
    (acquire s ret n).1.allocated = s.allocated := by
  unfold acquire
  split
  · exact resume_allocated s ret []
  · rfl

theorem took_allocated (s : Shared T) (ret : TakeRet T) (cached : List Addr) :
    (took s ret cached).1.allocated = s.allocated := by
  cases ret with
  | flush => rfl
  | acquire ret blocks remaining =>
    simp only [took]
    split
    · exact (resume_allocated _ _ _).trans (addAssign_allocated s blocks cached)
    · exact addAssign_allocated s blocks cached

theorem provision_allocated (cfg : Config) (s : Shared T) (src : List T) (index : ℕ)
    (block : Option Addr) (blocks : List Addr) :
    (provision cfg s src index block blocks).1.allocated = s.allocated := by
  simp only [provision]
  split
  · exact acquire_allocated s _ _
  · rfl

theorem severed_allocated (s : Shared T) (ret : TakeRet T) (taken : List Addr)
    (rest : Option Addr) : (step.severed s ret taken rest).1.allocated = s.allocated := by
  unfold step.severed
  split
  · rfl
  · exact took_allocated _ ret taken

theorem reserved_allocated (cfg : Config) (t : Tid) (s : Shared T) (src : List T) (index : ℕ)
    (block : Option Addr) (blocks : List Addr) :
    (reserved cfg t s src index block blocks).1.allocated = s.allocated := by
  simp only [reserved]
  split <;> rfl

theorem claimed_allocated (cfg : Config) (t : Tid) (s : Shared T) (cap index : ℕ)
    (block : Option Addr) (newIndex : ℕ) :
    (claimed cfg t s cap index block newIndex).1.allocated = s.allocated := by
  simp only [claimed]
  split <;> rfl

/-- The internal steps that free nothing leave the allocator alone. -/
theorem run_allocated (hf : freedBy (T := T) .run pc = none) :
    Post (fun r => r.1.allocated = s.allocated) (step cfg t .run s pc) := by
  have hreload (ret : TakeRet T) := reload_post (P := fun r => r.1.allocated = s.allocated)
    (fun _ _ => rfl) fun _ => took_allocated s ret []
  cases pc with
  | cFree r next b => simp [freedBy] at hf
  | wBlock src index => exact acquire_allocated s _ _
  | wLoop src index block blocks =>
    simp only [step]
    split
    · exact rfl
    split
    · exact acquire_allocated s _ _
    · exact provision_allocated cfg s src index block blocks
  | wRoot src index new blocks =>
    simp only [step]
    split
    · exact rfl
    · exact addAssign_allocated s blocks new
  | wRootStore src index new blocks => exact provision_allocated cfg _ src index new.head? blocks
  | wCas src index block blocks =>
    simp only [step]
    split
    · exact reserved_allocated cfg t s src index block blocks
    · exact rfl
  | wCopy w next i =>
    simp only [step]
    split
    · split
      · trivial
      · exact deref_post (fun _ => rfl) fun a _ => rfl
    · exact rfl
  | wDrop w =>
    cases hb : w.blocks with
    | nil =>
      simp only [step, hb]
      exact rfl
    | cons b rest => simp [freedBy, hb] at hf
  | fDrop blocks freed =>
    cases blocks with
    | nil => exact rfl
    | cons b rest => simp [freedBy] at hf
  | wNext | wPublish | apHas | rNext | acNext => exact deref_post (fun _ => rfl) fun a _ => rfl
  | apFind =>
    refine deref_post (fun _ => rfl) fun a _ => ?_
    split <;> rfl
  | rProduced | rConsume | rVblocks =>
    refine deref_post (fun _ => rfl) fun a _ => ?_
    dsimp only
    split <;> rfl
  | apWalk a =>
    simp only [step]
    split
    · exact deref_post (fun _ => rfl) fun a _ => rfl
    · exact rfl
  | tLoad ret => exact hreload ret
  | tCas ret head =>
    simp only [step]
    split
    · exact rfl
    · exact hreload ret
  | tWalk ret taken rest =>
    simp only [step]
    split
    · split
      · exact rfl
      · exact severed_allocated s ret taken _
    · exact severed_allocated s ret taken _
  | rCas cap index block newIndex =>
    simp only [step]
    split
    · exact claimed_allocated cfg t s cap index block newIndex
    · exact rfl
  | rCopy r i =>
    simp only [step]
    split
    · refine deref_post (fun _ => rfl) fun a _ => ?_
      split <;> rfl
    · split <;> exact rfl
  | cLink r next b head => cases head <;> exact rfl
  | wSeg | rLoop | rPidx | rSeg | rPending | acLoad | cPush =>
    simp only [step]
    split_ifs <;> exact rfl
  | _ => trivial

/-- Private blocks are allocated. -/
theorem held_allocated (h : Inv cfg s g) (ha : g.owner a = .held t) : s.allocated a = true := by
  by_contra hc
  simp [h.freed a (by simpa using hc)] at ha

theorem Block.Clean.drops {b : Block T} (h : b.Clean) : b.drops cfg = [] := by
  unfold Block.drops
  rw [List.flatMap_eq_nil_iff]
  intro v _
  rw [h.2 v]
  rfl

/-- A block that is freed during the run is in use, private and clean. -/
theorem freedBy_spec (h : Inv cfg s g) (hl : Local cfg t s g pc)
    (hf : freedBy act pc = some a)
    (hs : step cfg t act s pc = some r) :
    s.allocated a = true ∧ (s.heap a).Clean ∧
      r.1.allocated = update s.allocated a false := by
  cases act with
  | call | spurious | alloc => simp [freedBy] at hf
  | run =>
    have hhere := hl.here
    cases pc with
    | wDrop w =>
      have hb : w.blocks.head? = some a := hf
      obtain ⟨rest, hrest⟩ := List.head?_eq_some_iff.mp hb
      simp only [step, hrest] at hs
      cases hs
      have hmem : a ∈ w.blocks := by simp [hrest]
      exact ⟨held_allocated h (hhere.1.2 a hmem).1, (hhere.1.2 a hmem).2, rfl⟩
    | fDrop blocks freed =>
      have hb : blocks.head? = some a := hf
      obtain ⟨rest, rfl⟩ := List.head?_eq_some_iff.mp hb
      cases hs
      have ho : Owned t s g (a :: rest) := hhere
      exact ⟨held_allocated h (ho.2 a (by simp)).1, (ho.2 a (by simp)).2, rfl⟩
    | cFree r next b =>
      obtain rfl : b = a := Option.some.inj hf
      cases hs
      exact ⟨held_allocated h hhere.1.1, hhere.2, rfl⟩
    | _ => simp [freedBy] at hf

/-- A block that a step obtains from the allocator was not in use. -/
theorem allocatedBy_spec (ha : allocatedBy act pc = some a)
    (hs : step cfg t act s pc = some r) :
    s.allocated a = false ∧ r.1.allocated = update s.allocated a true := by
  cases act with
  | call | spurious | run => simp [allocatedBy] at ha
  | alloc b =>
    cases pc with
    | aAlloc ret blocks remaining =>
      obtain rfl : b = a := Option.some.inj ha
      cases hfree : s.allocated b with
      | true => simp [step, hfree] at hs
      | false =>
        refine ⟨rfl, ?_⟩
        apply Post.of hs
        simp only [step, hfree, Bool.false_eq_true, if_false]
        split
        · exact resume_allocated _ _ _
        · exact rfl
    | _ => simp [allocatedBy] at ha

/-- The other steps leave the allocator alone. -/
theorem step_allocated (ha : allocatedBy act pc = none)
    (hf : freedBy act pc = none) (hs : step cfg t act s pc = some r) :
    r.1.allocated = s.allocated := by
  apply Post.of hs
  cases act with
  | run => exact run_allocated hf
  | alloc a =>
    cases pc with
    | aAlloc ret blocks remaining => simp [allocatedBy] at ha
    | _ => trivial
  | call op =>
    cases pc with
    | idle =>
      cases op with
      | writeFrom src | readInto cap =>
        simp only [step]
        split <;> exact rfl
      | flushFreelist => exact rfl
    | _ => cases op <;> trivial
  | spurious =>
    cases pc with
    | tCas ret head => exact reload_post (fun _ _ => rfl) fun _ => took_allocated s ret []
    | _ => trivial

/-- During the run the books agree with the allocator and no value is dropped. -/
structure Kept (s : Shared T) (b : Books T) : Prop where
  events : Account.run b.events (fun _ => false) = some s.allocated
  dropped : b.dropped = []

theorem Kept.step {b : Books T} (hk : Kept s b) (h : Inv cfg s g)
    (hl : Local cfg t s g pc)
    (hs : step cfg t act s pc = some r) : Kept r.1 (b.step cfg act s pc) := by
  unfold Books.step
  cases ha : allocatedBy act pc with
  | some a =>
    obtain ⟨hfree, halloc⟩ := allocatedBy_spec ha hs
    refine ⟨?_, hk.dropped⟩
    rw [halloc]
    exact Account.run_snoc_alloc hk.events hfree
  | none =>
    cases hf : freedBy act pc with
    | some a =>
      obtain ⟨hused, hclean, halloc⟩ := freedBy_spec h hl hf hs
      constructor
      · rw [halloc]
        exact Account.run_snoc_dealloc hk.events hused
      · show b.dropped ++ (s.heap a).drops cfg = []
        rw [hk.dropped, hclean.drops]
        rfl
    | none =>
      refine ⟨?_, hk.dropped⟩
      rw [step_allocated ha hf hs]
      exact hk.events

/-- Thread `t` at `pc`, all others idle. -/
def loneConf (t : Tid) (s : Shared T) (pc : Pc T) : Conf T :=
  ⟨s, update (fun _ => .idle) t pc⟩

/-- **The books along a run on one thread.** -/
theorem record_ok {acts : List (Act T)} {pc pc' : Pc T} {b b' : Books T}
    (hc : (solo T cfg t).Reachable (loneConf t s pc)) (hk : Kept s b)
    (h : record cfg t acts s pc b = some (s', pc', b')) :
    (solo T cfg t).Reachable (loneConf t s' pc') ∧ Kept s' b' ∧
      s'.trace.map (fun e => e.2.1) ++ pc'.op.toList =
        s.trace.map (fun e => e.2.1) ++ pc.op.toList ++ acts.filterMap Act.called := by
  induction acts generalizing s pc b with
  | nil =>
    obtain ⟨rfl, rfl, rfl⟩ : s = s' ∧ pc = pc' ∧ b = b' := by simpa [record] using h
    exact ⟨hc, hk, (List.append_nil _).symm⟩
  | cons act acts ih =>
    simp only [record] at h
    split at h
    · cases h
    · rename_i s₁ pc₁ hs
      obtain ⟨g, hI, hL⟩ := run_ok (System.restrict_reachable hc)
      have hl := hL t
      simp only [loneConf, update_self] at hI hl
      have hc₁ : (solo T cfg t).Reachable (loneConf t s₁ pc₁) := by
        refine hc.step (t := t) ⟨s₁, pc₁, ⟨⟨act, ?_⟩, rfl⟩, ?_⟩
        · simpa [loneConf] using hs
        · simp [loneConf]
      have hnf : pc₁ ≠ .fault := by
        rintro rfl
        obtain ⟨g₁, _, hL₁⟩ := run_ok (System.restrict_reachable hc₁)
        have hl₁ := (hL₁ t).here
        simp only [loneConf, update_self] at hl₁
        exact hl₁
      obtain ⟨hr, hk', hcalls⟩ := ih hc₁ (hk.step hI hl hs) h
      refine ⟨hr, hk', ?_⟩
      rw [hcalls, step_calls hs hnf, List.filterMap_cons]
      cases hact : act.called <;> simp

/-! ## Cutting a list

`cut xs c a b` lists the items of `xs` at the positions from `a` up to `b` that
are not below `c`. -/

def cut {α : Type*} (xs : List α) (c a b : ℕ) : List α := (xs.take b).drop (max c a)

theorem cut_self {α : Type*} (xs : List α) (c a : ℕ) : cut xs c a a = [] := by
  apply List.drop_eq_nil_of_le
  rw [List.length_take]
  omega

theorem cut_append {α : Type*} {xs : List α} {c a b d : ℕ} (hab : a ≤ b) (hbd : b ≤ d) :
    cut xs c a b ++ cut xs c b d = cut xs c a d := by
  unfold cut
  rcases Nat.lt_or_ge b c with hc | hc
  · rw [List.drop_eq_nil_of_le (by rw [List.length_take]; omega), List.nil_append]
    congr 1
    omega
  · have htake : xs.take b = (xs.take d).take b := by
      rw [List.take_take, Nat.min_eq_left hbd]
    have hdrop : (xs.take d).drop b = ((xs.take d).drop (max c a)).drop (b - max c a) := by
      rw [List.drop_drop]
      congr 1
      omega
    rw [htake, List.drop_take, max_eq_right hc, hdrop, List.take_append_drop]

/-! ## The queue at rest -/

/-- No call is in progress. -/
structure Resting (cfg : Config) (s : Shared T) (g : Ghost T) : Prop where
  inv : Inv cfg s g
  pown : g.pown = none
  cown : g.cown = none
  fown : g.fown = none
  held : ∀ a u, g.owner a ≠ .held u
  pending : ∀ u, g.L.Pending u 0 0
  covers : ∀ u, g.L.Covers u 0 0
  counts : ∀ k v u, g.vstat k v ≠ .full u

theorem resting_of_idle (h : Inv cfg s g) (hL : ∀ u, Local cfg u s g .idle) :
    Resting cfg s g := by
  have hnone : ∀ o : Option Tid, (∀ u, o ≠ some u) → o = none := by
    intro o ho
    cases o with
    | none => rfl
    | some u => exact absurd rfl (ho u)
  refine ⟨h, hnone _ fun u hu => ?_, hnone _ fun u hu => ?_, hnone _ fun u hu => ?_,
    fun a u ha => ?_, fun u => (hL u).pending rfl, fun u => (hL u).covers rfl, fun k v u hv => ?_⟩
  · exact absurd ((hL u).holdsP.mp hu) (by simp [Pc.holdsP])
  · exact absurd ((hL u).holdsC.mp hu) (by simp [Pc.holdsC])
  · exact absurd ((hL u).holdsF.mp hu) (by simp [Pc.holdsF])
  · exact absurd ((hL u).keeps rfl a ha) (by simp [Pc.blocks])
  · exact absurd ((hL u).counts k v hv) (by simp [Pc.counts])

namespace Resting

section

variable (h : Resting cfg s g)

include h

/-- Every reserved position is published. -/
theorem published {p : ℕ} : (∃ x, g.L.prod p = .published x) ↔ p < g.L.ppos := by
  constructor
  · rintro ⟨x, hx⟩
    exact h.inv.ledger.reserved_lt (by rw [hx]; simp)
  · intro hp
    cases hc : g.L.prod p with
    | free => exact absurd ((h.inv.ledger.prod_free p).mp hc) (by omega)
    | reserved u x => exact absurd (h.pending u p x (Or.inl hc)) (by omega)
    | copied u x => exact absurd (h.pending u p x (Or.inr hc)) (by omega)
    | published x => exact ⟨x, rfl⟩

/-- Every claimed position is completed. -/
theorem done {p : ℕ} : g.L.cons p = .done ↔ p < g.L.cpos := by
  constructor
  · intro hd
    exact h.inv.ledger.claimed_lt (by simp [hd])
  · intro hp
    cases hc : g.L.cons p with
    | free => exact absurd ((h.inv.ledger.cons_free p).mp hc) (by omega)
    | claimed u => exact absurd (h.covers u p (Or.inl hc)) (by omega)
    | taken u => exact absurd (h.covers u p (Or.inr hc)) (by omega)
    | done => rfl

theorem cpos : ∃ off, off < cfg.cap ∧ g.L.cpos = g.ck * cfg.cap + off ∧
    s.consumerBlock = s.linked[g.ck]? := by
  have hc := h.inv.chead
  simp only [ConsHead, h.cown] at hc
  obtain ⟨off, _, hoff, _, _, hpos, hblk, _⟩ := hc
  exact ⟨off, hoff, hpos, hblk⟩

theorem ppos_le : g.L.ppos ≤ s.linked.length * cfg.cap := by
  have hp := h.inv.phead
  simp only [ProdHead, h.pown] at hp
  obtain ⟨off, _, hoff, _, _, hpos, _⟩ := hp
  have := token_mul_le cfg h.inv.pk_lt
  omega

/-- The blocks from the consumer's on are in the chain, spare ones included. -/
theorem live (k : ℕ) (a : Addr) (hk : g.ck ≤ k)
    (ha : s.linked[k]? = some a) : g.owner a = .chain k := by
  obtain ⟨off, hoff, hpos, _⟩ := h.cpos
  rcases Nat.lt_or_eq_of_le hk with hlt | rfl
  · apply live_of_unclaimed h.inv ha
    have := token_mul_le cfg hlt
    omega
  · apply live_of_not_done h.inv ha (cfg.vblock_lt hoff) (cfg.offset_lt off)
    rw [cfg.pos_div_mod, Ne, h.done]
    omega

/-- The blocks before the consumer's have left the chain. -/
theorem ck_le {k : ℕ} (ha : g.owner a = .chain k) : g.ck ≤ k := by
  by_contra hk
  obtain ⟨off, _, hpos, _⟩ := h.cpos
  have hmul := token_mul_le cfg (Nat.lt_of_not_le hk)
  obtain ⟨v, hv, hne⟩ := h.inv.unretired a k ha
  cases hst : g.vstat k v with
  | counted => exact hne hst
  | full u => exact h.counts k v u hst
  | opened =>
    obtain ⟨o, ho, hnd⟩ := h.inv.unfinished k v hv hst
    have := pos_lt_succ cfg (k := k) hv ho
    exact hnd (h.done.mpr (by omega))

theorem chain : LinkPath s.next s.consumerBlock (s.linked.drop g.ck) none := by
  obtain ⟨_, _, _, hblk⟩ := h.cpos
  rw [hblk]
  exact h.inv.chain.path_from h.live

theorem cache : ∃ p, s.freelist = .ptr p ∧ LinkPath s.next p g.cache none := by
  cases hf : s.freelist with
  | ptr p => exact ⟨p, rfl, h.inv.cache_path p hf⟩
  | busy => exact absurd h.fown (h.inv.busy_iff.mp hf)

/-- **The chain and the cache share no block.** -/
theorem nodup : (s.linked.drop g.ck ++ g.cache).Nodup := by
  rw [List.nodup_append']
  refine ⟨ChainWF.nodup_drop h.live, h.inv.cache_nodup, fun a ha hc => ?_⟩
  obtain ⟨k, _, hown⟩ := (h.inv.chain.mem_drop_iff h.live).mp ha
  simp [(h.inv.cache_mem a).mpr hc] at hown

/-- **The chain and the cache are all there is.** -/
theorem allocated_iff (a : Addr) :
    s.allocated a = true ↔ a ∈ s.linked.drop g.ck ++ g.cache := by
  rw [List.mem_append, h.inv.chain.mem_drop_iff h.live, ← h.inv.cache_mem a]
  constructor
  · intro ha
    cases hown : g.owner a with
    | free => exact absurd hown (h.inv.used a ha)
    | chain k => exact Or.inl ⟨k, h.ck_le hown, rfl⟩
    | held u => exact absurd hown (h.held a u)
    | pooled => exact Or.inr rfl
  · intro ha
    by_contra hc
    have hfree := h.inv.freed a (by simpa using hc)
    rw [hfree] at ha
    simp at ha

end

/-! ## What the counters find -/

section

variable (h : Resting cfg s g)

include h

/-- The counters of a live block at rest. -/
theorem counters {k v : ℕ} (ha : g.owner a = .chain k)
    (hv : v < cfg.nv) :
    ((s.heap a).vblock v).consumed = min cfg.ns (g.L.cpos - cfg.pos k v 0) ∧
      ((s.heap a).vblock v).produced = min cfg.ns (g.L.ppos - cfg.pos k v 0) := by
  have hcont := h.inv.content a k ha
  constructor
  · rw [hcont.consumed v hv]
    apply tally_below (Nat.min_le_left _ _)
    intro p h1 h2
    rw [Ledger.CCell.isDone_iff, h.done]
    omega
  · rw [hcont.produced v hv]
    apply tally_below (Nat.min_le_left _ _)
    intro p h1 h2
    rw [Ledger.PCell.isPublished_iff, h.published]
    omega

/-- The stored values of a live block are those of the positions it stands for. -/
theorem slot {k v o : ℕ} (ha : g.owner a = .chain k)
    (hv : v < cfg.nv) (ho : o < cfg.ns) (hp : cfg.pos k v o < g.L.ppos) :
    some ((s.heap a).slots v o) = (s.sent.map some)[cfg.pos k v o]? := by
  obtain ⟨x, hx⟩ := h.published.mpr hp
  have hslot := (h.inv.content a k ha).slots v o x hv ho (Or.inl hx)
  rw [List.getElem?_map, sent_of_published h.inv hx, hslot]
  rfl

/-- A virtual block drops the unclaimed values among its own. -/
theorem drops_vblock {k v : ℕ} (ha : g.owner a = .chain k)
    (hv : v < cfg.nv) :
    (List.range' ((s.heap a).vblock v).consumed
        (((s.heap a).vblock v).produced - ((s.heap a).vblock v).consumed)).map
          ((s.heap a).slots v) =
      cut (s.sent.map some) g.L.cpos (cfg.pos k v 0) (cfg.pos k v 0 + cfg.ns) := by
  obtain ⟨hc, hp⟩ := h.counters ha hv
  have hlen := h.inv.hist.sent_len
  rw [hc, hp]
  apply List.ext_getElem?
  intro i
  rw [List.getElem?_map, cut, List.getElem?_drop, List.getElem?_take]
  by_cases hi : i < min cfg.ns (g.L.ppos - cfg.pos k v 0) - min cfg.ns (g.L.cpos - cfg.pos k v 0)
  · have hpos : cfg.pos k v (min cfg.ns (g.L.cpos - cfg.pos k v 0) + i)
        = max g.L.cpos (cfg.pos k v 0) + i := by
      unfold Config.pos at hi ⊢
      omega
    rw [List.getElem?_range' hi, if_pos (by omega), Option.map_some, Nat.one_mul, ← hpos]
    exact h.slot ha hv (by omega) (by omega)
  · rw [List.getElem?_eq_none (by rw [List.length_range']; omega)]
    split
    · rw [List.getElem?_eq_none (by rw [List.length_map]; omega)]
      rfl
    · rfl

/-- A block drops the unclaimed values among its own. -/
theorem drops_block {k : ℕ} (ha : g.owner a = .chain k) :
    (s.heap a).drops cfg =
      cut (s.sent.map some) g.L.cpos (k * cfg.cap) (k * cfg.cap + cfg.cap) := by
  -- the virtual blocks below `n` drop the values of their positions
  have hall : ∀ n, n ≤ cfg.nv → ((List.range n).flatMap fun v =>
      (List.range' ((s.heap a).vblock v).consumed
        (((s.heap a).vblock v).produced - ((s.heap a).vblock v).consumed)).map
          ((s.heap a).slots v)) =
      cut (s.sent.map some) g.L.cpos (k * cfg.cap) (k * cfg.cap + n * cfg.ns) := by
    intro n
    induction n with
    | zero =>
      intro _
      rw [Nat.zero_mul, Nat.add_zero, cut_self]
      rfl
    | succ n ih =>
      intro hn
      have hpos : cfg.pos k n 0 = k * cfg.cap + n * cfg.ns := rfl
      rw [List.range_succ, List.flatMap_append, List.flatMap_singleton, ih (by omega),
        h.drops_vblock ha hn, hpos, cut_append (Nat.le_add_right _ _) (Nat.le_add_right _ _),
        Nat.succ_mul, Nat.add_assoc]
  exact hall cfg.nv (Nat.le_refl _)

/-- **What the chain drops** is what was sent and not claimed. -/
theorem drops_chain :
    ((s.linked.drop g.ck).flatMap fun a => (s.heap a).drops cfg) = s.contents.map some := by
  -- induction on the number of blocks from token `j` to the end of the chain
  have hall : ∀ n j, g.ck ≤ j → j + n = s.linked.length →
      ((s.linked.drop j).flatMap fun a => (s.heap a).drops cfg) =
        cut (s.sent.map some) g.L.cpos (j * cfg.cap) (s.linked.length * cfg.cap) := by
    intro n
    induction n with
    | zero =>
      intro j _ hj
      rw [← hj, Nat.add_zero, List.drop_eq_nil_of_le (by omega), cut_self]
      rfl
    | succ n ih =>
      intro j hck hj
      have hlt : j < s.linked.length := by omega
      have hown := h.live j _ hck (List.getElem?_eq_getElem hlt)
      rw [List.drop_eq_getElem_cons hlt, List.flatMap_cons, h.drops_block hown,
        ih (j + 1) (by omega) (by omega), Nat.succ_mul,
        cut_append (Nat.le_add_right _ _) (token_mul_le cfg hlt)]
  obtain ⟨off, _, hpos, _⟩ := h.cpos
  have hck : g.ck ≤ s.linked.length := by
    have := h.inv.ck_le
    have := h.inv.pk_lt
    omega
  have hlen := h.inv.hist.sent_len
  have hle := h.ppos_le
  rw [hall (s.linked.length - g.ck) g.ck (Nat.le_refl _) (by omega), cut,
    List.take_of_length_le (by rw [List.length_map]; omega), max_eq_left (by omega),
    Shared.contents, h.inv.hist.claim_len, List.map_drop]

end

end Resting

/-! ## The drop itself -/

/-- Dropping a null-terminated chain frees its blocks one by one and touches
nothing else. -/
theorem dropList_spec (cfg : Config) {l : List Addr} {p : Option Addr}
    (hp : LinkPath s.next p l none)
    (hnd : l.Nodup) (b : Books T) : ∃ s', (∀ fuel, l.length ≤ fuel → dropList cfg fuel s b p =
        some (s', ⟨b.events ++ l.map .dealloc,
          b.dropped ++ l.flatMap fun a => (s.heap a).drops cfg⟩)) ∧
      s'.freelist = s.freelist ∧ ∀ a, a ∉ l → s'.heap a = s.heap a := by
  induction l generalizing s p b with
  | nil =>
    obtain rfl : p = none := hp
    refine ⟨s, fun fuel _ => ?_, rfl, fun _ _ => rfl⟩
    cases fuel <;> simp [dropList]
  | cons a l ih =>
    obtain ⟨rfl, htail⟩ := hp
    obtain ⟨hnot, hnd'⟩ := List.nodup_cons.mp hnd
    let s₁ := (s.modBlock a (·.setNext none)).dealloc a
    have hheap : ∀ c, c ≠ a → s₁.heap c = s.heap c := fun c hc => update_of_ne hc _ _
    have hself : (s.modBlock a (·.setNext none)).heap a = (s.heap a).setNext none :=
      update_self _ _ _
    have hpath : LinkPath s₁.next (s.next a) l none := by
      refine path_congr (fun c hc => ?_) htail
      show (s₁.heap c).next = (s.heap c).next
      rw [hheap c (fun heq => hnot (heq ▸ hc))]
    obtain ⟨s', hdrop, hfl, hother⟩ :=
      ih hpath hnd' (b.free cfg (s.modBlock a (·.setNext none)) a)
    refine ⟨s', fun fuel hfuel => ?_, hfl, fun c hc => ?_⟩
    · cases fuel with
      | zero => cases hfuel
      | succ fuel =>
        have hsame : (l.flatMap fun c => (s₁.heap c).drops cfg) =
            l.flatMap fun c => (s.heap c).drops cfg := by
          refine List.flatMap_congr fun c hc => ?_
          rw [hheap c (fun heq => hnot (heq ▸ hc))]
        rw [dropList]
        refine (hdrop fuel (by simpa using hfuel)).trans ?_
        rw [hsame]
        have hdrops :
            ((s.modBlock a (·.setNext none)).heap a).drops cfg = (s.heap a).drops cfg := by
          rw [hself]
          rfl
        simp only [Books.free, hdrops, List.map_cons, List.flatMap_cons, List.append_assoc,
          List.singleton_append]
    · rw [List.mem_cons, not_or] at hc
      rw [hother c hc.2, hheap c hc.1]

/-- **Dropping a queue at rest** frees every block in use and drops its contents. -/
theorem Resting.drops (h : Resting cfg s g) (b : Books T) :
    Drops cfg s b ⟨b.events ++ (s.linked.drop g.ck ++ g.cache).map .dealloc,
      b.dropped ++ s.contents.map some⟩ := by
  obtain ⟨hnd, hndc, hdisj⟩ := List.nodup_append'.mp h.nodup
  obtain ⟨p, hfl, hcache⟩ := h.cache
  let s₀ : Shared T := { s with consumerBlock := none, producerBlock := none }
  have hchain : LinkPath s₀.next s.consumerBlock (s.linked.drop g.ck) none := h.chain
  obtain ⟨s₁, hdrop₁, hfl₁, hheap₁⟩ := dropList_spec cfg hchain hnd b
  have hout : ∀ a ∈ g.cache, s₁.heap a = s.heap a := fun a ha => hheap₁ a fun hc => hdisj hc ha
  have hcache₁ : LinkPath s₁.next p g.cache none := by
    refine path_congr (fun a ha => ?_) hcache
    show (s₁.heap a).next = (s.heap a).next
    rw [hout a ha]
  have hclean : (g.cache.flatMap fun a => (s₁.heap a).drops cfg) = [] := by
    rw [List.flatMap_eq_nil_iff]
    intro a ha
    rw [hout a ha]
    exact (h.inv.cache_clean a ha).drops
  obtain ⟨s₂, hdrop₂, _, _⟩ := dropList_spec cfg hcache₁ hndc
    ⟨b.events ++ (s.linked.drop g.ck).map .dealloc, b.dropped ++ s.contents.map some⟩
  refine ⟨(s.linked.drop g.ck).length + g.cache.length, s₂, fun fuel hfuel => ?_⟩
  have h₁ := hdrop₁ fuel (by omega)
  have h₂ := hdrop₂ fuel (by omega)
  have hval : ((s.linked.drop g.ck).flatMap fun a => (s₀.heap a).drops cfg) =
      s.contents.map some := h.drops_chain
  rw [hval] at h₁
  rw [hclean, List.append_nil] at h₂
  have hfl' : s₁.freelist = .ptr p := hfl₁.trans hfl
  show (dropList cfg fuel s₀ b s.consumerBlock).bind _ = _
  rw [h₁]
  simp only [Option.bind_some, hfl', h₂, List.map_append, List.append_assoc]

/-! ## The balance -/

/-- The values that a call puts into the queue. -/
def Op.values : Op T → List T
  | .writeFrom src => src
  | _ => []

/-- The values that a call took out of the queue. -/
def Res.values : Res T → List T
  | .out vs => vs
  | _ => []

/-- All values returned by the calls of a trace, in their order. -/
def returned (tr : List (Tid × Op T × Res T)) : List T := tr.flatMap fun e => e.2.2.values

theorem Behaves.balance {tr : List (Tid × Op T × Res T)} {q : List T} (h : Behaves tr q) :
    returned tr ++ q = (tr.map fun e => e.2.1).flatMap Op.values := by
  induction h with
  | nil => rfl
  | @call tr q q' t op res _ hspec _ ih =>
    rw [List.map_append, List.flatMap_append, ← ih]
    cases op with
    | writeFrom src =>
      obtain ⟨rfl, rfl⟩ := hspec
      simp [returned, Res.values, Op.values]
    | readInto cap =>
      obtain ⟨rfl, rfl⟩ := hspec
      simp [returned, Res.values, Op.values]
    | flushFreelist =>
      obtain ⟨⟨n, rfl⟩, rfl⟩ := hspec
      simp [returned, Res.values, Op.values]

theorem kept_new : Kept (Shared.new : Shared T) Books.new where
  events := by
    show some _ = some _
    congr
    funext a
    by_cases ha : a = 0 <;> simp [Shared.new, update, ha]
  dropped := rfl

theorem loneConf_new : (solo T cfg t).Reachable (loneConf t Shared.new .idle) := by
  have hpc : update (fun _ : Tid => (.idle : Pc T)) t .idle = fun _ => .idle :=
    update_eq_self t _
  rw [loneConf, hpc]
  exact .start

end V8
