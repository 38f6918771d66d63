/-
# `push_batch` on arbitrary iterators

The machine runs `push_batch` on iterators that keep their word.  Here the iterator
is arbitrary: it reports a length, and its `k`-th `next` yields an item, yields
nothing, or panics; and the allocator may fail to provide the blocks.  A call is
run alone, on any memory whose chain from `phead` on is sound (`Sound`), which the
memory of every run without stale claims is (`sound_of_run`).

The reservation and the block transition are published before the first `next`, so
where `next` panics the slots that are left stay blank.  A call that returns has
settled its whole range, and one that unwinds for want of memory has reserved
nothing: a call settles what it reserves exactly if no `next` that it makes panics.
The proof follows the call with one assertion per program counter
(`Outline`): before the reservation the blocks in use are as they were, behind it
the range lies on the `spine`, the blocks from `phead.block` on.
-/
import Ubq.Mpmc.Delivery
import Ubq.Mpmc.Push

namespace Mpmc

open Function

/-! ## Iterators -/

/-- What a call of `next` does. -/
inductive Answer (T : Type*)
  | item (v : T)
  | exhausted
  | panics

/-- An `ExactSizeIterator`: the length it reports, cut to `usize::MAX - 1`, and what
its `k`-th `next` does. -/
structure Source (T : Type*) where
  len : ℕ
  next : ℕ → Answer T

/-- Why a call unwinds: a `next` has panicked, or the allocator has failed. -/
inductive Cause
  | panic
  | allocation

/-- The progress of one call of `push_batch`; `unwinding` drops the blocks that the
call has kept ready. -/
inductive Call (T : Type*)
  | running (pc : Pc T)
  | unwinding (cause : Cause) (blocks : List Addr)
  | returned
  | unwound (cause : Cause)

section Code

variable {T : Type*}

/-- The item of an answer. -/
def Answer.item? : Answer T → Option T
  | .item v => some v
  | _ => none

/-- The items of a call, by slot. -/
def Source.items (it : Source T) : List (Option T) :=
  (List.range it.len).map fun k => (it.next k).item?

/-- An empty batch returns at once. -/
def Call.start (it : Source T) : Call T :=
  if it.len = 0 then .returned else .running (.pLoad ⟨it.items, .user it.items.reduceOption, []⟩)

/-- The blocks in hand when the `next` that a step of the slot loop calls panics. -/
def Source.panics (it : Source T) : Pc T → Option (List Addr)
  | .pWrite f _ =>
    match it.next f.done with
    | .panics => some f.p.blocks
    | _ => none
  | _ => none

/-- A thread that is idle again has returned. -/
def Call.ofPc : Pc T → Call T
  | .idle => .returned
  | pc => .running pc

/-- One step of the call; no choice of the scheduler stands for a failed allocation. -/
def Call.step (cfg : Config) (t : Tid) (it : Source T) (act : Option (Act T)) (s : Shared T) :
    Call T → Option (Shared T × Call T)
  | .running pc =>
    match act, pc with
    | none, .pInitAlloc p | none, .pAlloc p _ _ =>
      some (s, .unwinding .allocation p.blocks)
    | none, _ => none
    | some act, pc =>
      match it.panics pc with
      | some blocks => some (s, .unwinding .panic blocks)
      | none => (Mpmc.step cfg t act s pc).map fun r => (r.1, .ofPc r.2)
  | .unwinding cause [] => some (s, .unwound cause)
  | .unwinding cause (b :: rest) => some (s.free cfg b, .unwinding cause rest)
  | .returned | .unwound _ => none

/-- The call has returned or unwound. -/
def Call.ended : Call T → Bool
  | .returned | .unwound _ => true
  | _ => false

/-- The call alone, from one state to another. -/
def Call.Runs (cfg : Config) (t : Tid) (it : Source T) :
    Shared T × Call T → Shared T × Call T → Prop :=
  Relation.ReflTransGen fun r r' => ∃ act, Call.step cfg t it act r.1 r.2 = some r'

end Code

/-! ## Memory -/

section Memory

variable {T : Type*} {cfg : Config} {t : Tid} {s s' s₀ : Shared T} {g : Ghost T}
  {spine blocks : List Addr} {i : ℕ} {a : Addr}

/-- The slots from place `i` of the spine on are blank. -/
def Blank (cfg : Config) (s : Shared T) (spine : List Addr) (i : ℕ) : Prop :=
  ∀ p b, i ≤ p → spine[p / cfg.bl]? = some b → ((s.heap b).slots (p % cfg.bl)).state = .zero

/-- Nothing has been written from place `i` on, to the private blocks or to the spare one. -/
structure Fresh (cfg : Config) (s : Shared T) (spine blocks : List Addr) (i : ℕ) : Prop
    extends Mem s spine blocks where
  blank : Blank cfg s spine i
  clean : ∀ a, a ∈ blocks ∨ s.pool = some a → (s.heap a).Clean

/-- The memory a call may start on: no block yet, a chain from `phead` on, or a
boundary that another thread is crossing. -/
def Sound (cfg : Config) (s : Shared T) : Prop :=
  (s.phead = Head.zero ∧ Fresh cfg s [] [] 0) ∨
    (∃ spine, Fresh cfg s spine [] s.phead.index ∧ Open cfg spine s.phead) ∨
    cfg.bl ≤ s.phead.index

/-- No place of an empty chain. -/
theorem Blank.nil : Blank cfg s [] i := fun _ _ _ hb => absurd hb (by simp)

/-- Every state of a run without stale claims is sound. -/
theorem sound_of_run {c : Conf T} (hc : (calm T cfg).Reachable c) : Sound cfg c.sh := by
  obtain ⟨g, hI, _⟩ := run_ok hc
  have hpool : ∀ a, c.sh.pool = some a → c.sh.next a = none ∧ c.sh.arena.allocated a = true := by
    intro a ha
    refine ⟨(hI.pool_clean a ha).2, ?_⟩
    by_contra hfree
    have := hI.pages.freed a (by simpa using hfree)
    simp [(hI.pool_iff a).mpr ha] at this
  have hclean : ∀ a, a ∈ [] ∨ c.sh.pool = some a → (c.sh.heap a).Clean :=
    fun a ha => (hI.pool_clean a (ha.resolve_left List.not_mem_nil)).1
  by_cases hst : g.stage = .fresh
  · refine .inl ⟨(phead_zero_iff hI).mpr hst, ⟨List.nodup_nil, rfl, rfl, by simp,
      fun a ha => ⟨by simp, hpool a ha⟩⟩, .nil, hclean⟩
  · rcases Nat.lt_or_ge c.sh.phead.index cfg.bl with hlt | hge
    · obtain ⟨_, hpos, hhint⟩ := phead_open hI hlt
      have hpk := hI.pk_lt hst
      have hlive : ∀ k a, g.pk ≤ k → c.sh.linked[k]? = some a → g.owner a = .chain k := by
        intro k a hk ha
        have hle := hI.cpos_le
        have hmul := Nat.mul_le_mul_right cfg.bl hk
        exact live_of_unclaimed hI ha (i := cfg.bl - 1) (by omega) (by omega)
      have hmem := fun a => hI.chain.mem_drop_iff hlive (a := a)
      have hhead : c.sh.phead.block = (c.sh.linked.drop g.pk).head? := by
        rw [phead_block hI, List.head?_drop]
      refine .inr (.inl ⟨c.sh.linked.drop g.pk, ⟨⟨?_, ?_, rfl, fun a ha => ?_, fun a ha => ?_⟩,
        fun p b hp hb => ?_, hclean⟩, hhead, ?_, hlt, fun h => ?_⟩)
      · rw [List.append_nil]
        exact ChainWF.nodup_drop hlive
      · unfold Linked
        rw [List.head?_drop]
        exact hI.chain.path_from hlive
      · rw [List.append_nil, hmem] at ha
        obtain ⟨k, _, hk⟩ := ha
        by_contra hfree
        have := hI.pages.freed a (by simpa using hfree)
        simp [hk] at this
      · refine ⟨fun hc => ?_, hpool a ha⟩
        rw [List.append_nil, hmem] at hc
        obtain ⟨k, _, hk⟩ := hc
        simp [(hI.pool_iff a).mpr ha] at hk
      · -- place `p` of the spine is position `pk * BL + p`, which nobody has reserved
        rw [List.getElem?_drop] at hb
        refine (hI.content b _ (hlive _ b (Nat.le_add_right _ _) hb)).blank _
          (Nat.mod_lt _ cfg.bl_pos) fun x hx => ?_
        have hplace : (g.pk + p / cfg.bl) * cfg.bl + p % cfg.bl = g.pk * cfg.bl + p := by
          rw [Nat.add_mul, Nat.add_assoc, Nat.mul_comm (p / cfg.bl), Nat.div_add_mod]
        rw [hplace, (hI.ledger.prod_free _).mpr (by omega)] at hx
        cases hx
      · intro hnil
        rw [List.drop_eq_nil_iff] at hnil
        omega
      · rw [List.length_drop]
        have := hhint h
        omega
    · exact .inr (.inr hge)

/-! ### Unwritten blocks -/

/-- The memory changes in links only. -/
def Relinks (s s' : Shared T) (a : Addr) : Prop :=
  ∃ next, s'.heap a = { s.heap a with next := next }

theorem relinks_setNext (b a : Addr) (p : Option Addr) :
    Relinks s (s.modBlock b (·.setNext p)) a := by
  unfold Relinks Shared.modBlock
  by_cases hab : a = b
  · subst hab
    exact ⟨p, update_self ..⟩
  · exact ⟨_, update_of_ne hab _ _⟩

theorem relinks_give (self other : List Addr) (a : Addr) :
    Relinks s (s.give self other).1 a := by
  unfold Shared.give
  split
  · exact relinks_setNext _ a _
  · exact ⟨_, rfl⟩

theorem Relinks.clean (h : Relinks s s' a) (hc : (s.heap a).Clean) : (s'.heap a).Clean := by
  obtain ⟨next, h⟩ := h
  rw [h]
  exact hc

/-- Blank places stay blank where only links change. -/
theorem Blank.relink (h : Blank cfg s spine i) (hr : ∀ a ∈ spine, Relinks s s' a) :
    Blank cfg s' spine i := by
  intro p b hp hb
  obtain ⟨next, hr⟩ := hr b (List.mem_of_getElem? hb)
  rw [hr]
  exact h p b hp hb

section

variable (h : Fresh cfg s spine blocks i)

include h

/-- Clean private blocks behind the others. -/
theorem Fresh.give {other : List Addr}
    (hmem : Mem (s.give blocks other).1 spine (blocks ++ other))
    (hclean : ∀ a ∈ other, (s.heap a).Clean) :
    Fresh cfg (s.give blocks other).1 spine (blocks ++ other) i := by
  refine ⟨hmem, h.blank.relink fun a _ => relinks_give _ _ a, fun a ha => ?_⟩
  apply (relinks_give blocks other a).clean
  obtain ⟨heap, heq⟩ := give_rest s blocks other
  rw [heq] at ha
  rcases ha with ha | ha
  · exact (List.mem_append.mp ha).elim (fun ha => h.clean a (.inl ha)) (hclean a)
  · exact h.clean a (.inr ha)

/-- The spare block is clean. -/
theorem Fresh.swap (ha : s.pool = some a) :
    Fresh cfg ({ s with pool := none }.give blocks [a]).1 spine (blocks ++ [a]) i := by
  have hrest : Fresh cfg { s with pool := none } spine blocks i :=
    ⟨h.toMem.no_pool, h.blank, fun b hb => h.clean b (hb.imp_right nofun)⟩
  refine hrest.give (h.toMem.swap ha) fun b hb => ?_
  rw [List.mem_singleton.mp hb]
  exact h.clean a (.inr ha)

/-- New blocks are clean. -/
theorem Fresh.newChain {as : List Addr} (hne : as ≠ [])
    (hnd : as.Nodup) (hfree : ∀ a ∈ as, s.arena.allocated a = false) :
    Fresh cfg (s.newChain as) spine blocks i := by
  have hspec := newChain_spec s hne hnd
  have hkeep : ∀ a, s.arena.allocated a = true → (s.newChain as).heap a = s.heap a :=
    fun a ha => hspec.old a fun hc => by simp [hfree a hc] at ha
  refine ⟨(h.toMem.newChain hne hnd hfree).1, h.blank.relink fun a ha => ⟨_, hkeep a ?_⟩,
    fun a ha => ?_⟩
  · exact h.allocated a (List.mem_append_left _ ha)
  · obtain ⟨heap, arena, hrest⟩ := hspec.rest
    have hpool : (s.newChain as).pool = s.pool := by rw [hrest]
    rw [hpool] at ha
    rw [hkeep a (ha.elim (fun ha => h.allocated a (List.mem_append_right _ ha))
      fun ha => (h.pool a ha).2.2)]
    exact h.clean a ha

theorem Fresh.grow {as : List Addr} (hne : as ≠ [])
    (hnd : as.Nodup) (hfree : ∀ a ∈ as, s.arena.allocated a = false) :
    Fresh cfg ((s.newChain as).give blocks as).1 spine (blocks ++ as) i :=
  (h.newChain hne hnd hfree).give (h.toMem.grow hne hnd hfree) (newChain_spec s hne hnd).clean

/-- The places behind the last block are those of the private ones. -/
theorem Fresh.link {j : ℕ}
    (hget : spine[j]? = some a) (hlast : j + 1 = spine.length) :
    Fresh cfg (s.modBlock a (·.setNext blocks.head?)) (spine ++ blocks) [] i := by
  refine ⟨h.toMem.link hget hlast, fun p b hp hb => ?_, fun b hb => ?_⟩
  · obtain ⟨next, hr⟩ := relinks_setNext (s := s) a b blocks.head?
    rw [hr]
    rcases Nat.lt_or_ge (p / cfg.bl) spine.length with hlt | hge
    · rw [List.getElem?_append_left hlt] at hb
      exact h.blank p b hp hb
    · rw [List.getElem?_append_right hge] at hb
      exact (h.clean b (.inl (List.mem_of_getElem? hb))).2 _
  · exact (relinks_setNext a b _).clean (h.clean b (.inr (hb.resolve_left List.not_mem_nil)))

end

end Memory

/-! ## The outline of a call -/

section Outline

variable {T : Type*} {cfg : Config} {t : Tid} {it : Source T} {s₀ s s' : Shared T}
  {spine blocks : List Addr}
variable {r : Shared T × Pc T} {p : Push T} {phead : Head} {f : Fill T} {w : PushWalk T}
  {a : Addr} {as : List Addr} {next : Option Addr} {pc : Pc T}
variable (cfg t it s₀ s)

/-- The call has made no reservation and has touched no block that was in use; the
heads are as before, or those of a queue that has just got its first block. -/
structure Untouched : Prop where
  log : s.log = s₀.log
  kept : ∀ a, s₀.arena.allocated a = true → s₀.pool ≠ some a → s.heap a = s₀.heap a
  heads : (s.phead = s₀.phead ∧ s.chead = s₀.chead) ∨
    (s₀.phead = Head.zero ∧ ∃ r, s.phead = Head.fromPtr (some r) ∧ s.chead = s.phead)

/-- The private blocks of the call are new or come from the pool. -/
structure Spare (blocks : List Addr) : Prop where
  spare : ∀ a ∈ blocks, s₀.arena.allocated a = true → s₀.pool = some a
  grows : ∀ a, s₀.arena.allocated a = true → s.arena.allocated a = true
  pool : s.pool = s₀.pool ∨ s.pool = none

/-- The arguments of the call. -/
def Asked (p : Push T) : Prop := p.items = it.items ∧ ∃ vs, p.ret = .user vs

/-- Before the reservation, with the head `phead` read. -/
structure Ready (p : Push T) (phead : Head) (spine : List Addr) : Prop where
  asked : Asked it p
  same : Untouched s₀ s
  spare : Spare s₀ s p.blocks
  mem : Fresh cfg s spine p.blocks phead.index
  read : s.phead = phead
  opened : Open cfg spine phead

/-- The range starts where `phead` stood when the call began or, if there was no block
yet, in the first one, where `chead` stands. -/
def Starts (spine : List Addr) (i : ℕ) : Prop :=
  (spine.head?, i) =
    if s₀.phead = Head.zero then (s.chead.block, 0) else (s₀.phead.block, s₀.phead.index)

/-- The call has reserved `it.len` slots from slot `i` of the first block on. -/
structure Took (spine : List Addr) (i : ℕ) : Prop where
  starts : Starts s₀ s spine i
  index : i < cfg.bl
  log : ∃ pos, s.log.reservations = s₀.log.reservations ++ [(t, pos, it.items)]

/-- Slot `k` of the range. -/
def Slotted (spine : List Addr) (i k : ℕ) : Prop :=
  ∃ b, spine[(i + k) / cfg.bl]? = some b ∧
    ((s.heap b).slots ((i + k) % cfg.bl)).Has (it.next k).item?

/-- `phead` stands right behind the range. -/
def PheadBehind (spine : List Addr) (i : ℕ) : Prop :=
  s.phead.block = spine[(i + it.len) / cfg.bl]? ∧ s.phead.index = (i + it.len) % cfg.bl ∧
    i + it.len < spine.length * cfg.bl

/-- The boundary walk stands at the block `j` of the spine. -/
structure Walk (w : PushWalk T) (spine : List Addr) (i j : ℕ) : Prop where
  asked : Asked it w.p
  none_left : w.p.blocks = []
  took : Took cfg t it s₀ s spine i
  fresh : Fresh cfg s spine w.root i
  start : w.phead.block = spine.head? ∧ w.phead.index = i
  here : AtBoundary cfg s w spine (i + it.len) j

/-- The slot loop, after `f.done` slots. -/
structure Filled (f : Fill T) (spine : List Addr) (i : ℕ) : Prop where
  asked : Asked it f.p
  took : Took cfg t it s₀ s spine i
  nodup : spine.Nodup
  behind : PheadBehind cfg it s spine i
  range : OnRange cfg s f spine i
  slots : ∀ k, k < f.done → Slotted cfg it s spine i k
  blank : Blank cfg s spine (i + f.done)

/-- **The whole range is settled**: its slots lie on the chain from the old `phead` to
the new one, and each has got what the iterator yielded for it. -/
structure RangeSettled (spine : List Addr) (i : ℕ) : Prop where
  took : Took cfg t it s₀ s spine i
  path : Linked s spine
  nodup : spine.Nodup
  behind : PheadBehind cfg it s spine i
  slots : ∀ k, k < it.len → Slotted cfg it s spine i k

/-- What a call owes when it ends: nothing is reserved, or the whole range is settled. -/
def Settles : Prop :=
  Untouched s₀ s ∨ ∃ spine i, RangeSettled cfg t it s₀ s spine i

/-- The range is reserved, and the slot whose `next` has panicked is blank. -/
def LeftBlank : Prop :=
  ∃ spine i k b, Took cfg t it s₀ s spine i ∧ Linked s spine ∧ k < it.len ∧
    it.next k = .panics ∧ spine[(i + k) / cfg.bl]? = some b ∧
    ((s.heap b).slots ((i + k) % cfg.bl)).state = .zero

/-- The assertion at each point of the call. -/
def Outline : Call T → Prop
  | .running (.pLoad p) => s = s₀ ∧ Asked it p ∧ p.blocks = []
  | .running (.pInitSwap p) | .running (.pInitAlloc p) =>
    s = s₀ ∧ Asked it p ∧ p.blocks = [] ∧ s.phead = Head.zero
  | .running (.pInitCas p root) => Asked it p ∧ p.blocks = [] ∧ Untouched s₀ s ∧ Spare s₀ s [root] ∧
      Fresh cfg s [] [root] 0 ∧ s₀.phead = Head.zero ∧ s.phead = Head.zero
  | .running (.pInitStore p root) => Asked it p ∧ p.blocks = [] ∧
      Untouched s₀ { s with chead := Head.fromPtr (some root) } ∧ Spare s₀ s [] ∧
      Fresh cfg s [root] [] 0 ∧ s.phead = Head.fromPtr (some root)
  | .running (.pReload p) => s = s₀ ∧ Asked it p ∧ p.blocks = [] ∧ cfg.bl ≤ s.phead.index
  | .running (.pSwap p phead need) => (∃ spine, Ready cfg it s₀ s p phead spine) ∧
      need = pushNeed cfg p phead
  | .running (.pAlloc p phead need) => (∃ spine, Ready cfg it s₀ s p phead spine) ∧
      need = pushNeed cfg p phead ∧ p.blocks.length * cfg.bl < need
  | .running (.pCas p phead) => (∃ spine, Ready cfg it s₀ s p phead spine) ∧
      pushNeed cfg p phead ≤ p.blocks.length * cfg.bl
  | .running (.pNext w) => ∃ spine i j, Walk cfg t it s₀ s w spine i j
  | .running (.pLink w) => ∃ spine i j, Walk cfg t it s₀ s w spine i j ∧ j + 1 = spine.length
  | .running (.pStore w _) => ∃ spine i j, Walk cfg t it s₀ s w spine i j ∧
      w.index + w.remaining < cfg.bl
  | .running (.pWait f) => ∃ spine i, Filled cfg t it s₀ s f spine i ∧ f.done < it.len
  | .running (.pWrite f next) => ∃ spine i, Filled cfg t it s₀ s f spine i ∧ f.done < it.len ∧
      (f.index + 1 = cfg.bl → next = spine[(i + f.done) / cfg.bl + 1]?)
  | .running (.pDrop p) => Asked it p ∧ ∃ spine i, RangeSettled cfg t it s₀ s spine i
  | .returned => (it.len = 0 ∧ s = s₀) ∨ ∃ spine i, RangeSettled cfg t it s₀ s spine i
  | .unwinding .allocation _ | .unwound .allocation => Untouched s₀ s
  | .unwinding .panic _ | .unwound .panic => LeftBlank cfg t it s₀ s
  | .running _ => False

variable {cfg t it s₀ s}

/-! ### Before the reservation -/

theorem Untouched.refl (s : Shared T) : Untouched s s := ⟨rfl, fun _ _ _ => rfl, .inl ⟨rfl, rfl⟩⟩

theorem Spare.nil (s : Shared T) : Spare s s [] :=
  ⟨nofun, fun _ h => h, .inl rfl⟩

theorem Spare.no_pool (h : Spare s₀ s blocks) (ha : s.pool = some a) :
    Spare s₀ { s with pool := none } (blocks ++ [a]) where
  spare := fun b hb hal => by
    rcases List.mem_append.mp hb with hb | hb
    · exact h.spare b hb hal
    · rw [List.mem_singleton] at hb
      subst hb
      rcases h.pool with hp | hp
      · rw [← hp, ha]
      · simp [ha] at hp
  grows := h.grows
  pool := .inr rfl

theorem Spare.newChain (h : Spare s₀ s blocks)
    (hfree : ∀ a ∈ as, s.arena.allocated a = false) (hpool : (s.newChain as).pool = s.pool) :
    Spare s₀ (s.newChain as) (blocks ++ as) where
  spare := fun b hb hal => by
    rcases List.mem_append.mp hb with hb | hb
    · exact h.spare b hb hal
    · have := h.grows b hal
      simp [hfree b hb] at this
  grows := fun a ha => by
    rw [newChain_allocated, h.grows a ha]
    simp
  pool := by
    rw [hpool]
    exact h.pool

/-- Changes to spare blocks only. -/
theorem Untouched.spare (h : Untouched s₀ s) (hsp : Spare s₀ s blocks) (s' : Shared T)
    (hheap : ∀ a, a ∉ blocks → s.arena.allocated a = true → s'.heap a = s.heap a)
    (hlog : s'.log = s.log) (hp : s'.phead = s.phead) (hc : s'.chead = s.chead) :
    Untouched s₀ s' where
  log := hlog.trans h.log
  kept := fun a ha hne => by
    rw [hheap a (fun hc => hne (hsp.spare a hc ha)) (hsp.grows a ha)]
    exact h.kept a ha hne
  heads := by
    rw [hp, hc]
    exact h.heads

theorem ready_loop (spine : List Addr)
    (h : Ready cfg it s₀ s p phead spine) :
    Outline cfg t it s₀ s (.running (pushLoop cfg p phead)) := by
  have hidx := h.opened.index
  unfold pushLoop
  rw [if_neg (by omega)]
  split
  · exact ⟨⟨spine, h⟩, rfl⟩
  · exact ⟨⟨spine, h⟩, by omega⟩

theorem ready_grown (h : Ready cfg it s₀ s p phead spine) :
    Outline cfg t it s₀ s (.running (grown cfg p phead (pushNeed cfg p phead))) := by
  unfold grown
  split
  · exact ⟨⟨spine, h⟩, rfl, by assumption⟩
  · exact ⟨⟨spine, h⟩, by omega⟩

theorem pLoad_outline (hsound : Sound cfg s₀)
    (h : Outline cfg t it s₀ s (.running (.pLoad p)))
    (hs : step cfg t .run s (.pLoad p) = some r) : Outline cfg t it s₀ r.1 (.running r.2) := by
  obtain ⟨rfl, hask, hnil⟩ := h
  simp only [step, stepWith] at hs
  split at hs <;> cases hs
  · exact ⟨rfl, hask, hnil, by assumption⟩
  · rename_i hne
    rcases hsound with ⟨hz, _⟩ | ⟨spine, hmem, hopen⟩ | hfull
    · exact absurd hz hne
    · refine ready_loop spine ⟨hask, Untouched.refl s, ?_, ?_, rfl, hopen⟩
      · rw [hnil]
        exact Spare.nil s
      · rwa [hnil]
    · unfold pushLoop
      rw [if_pos hfull]
      exact ⟨rfl, hask, hnil, hfull⟩

/-- A queue without a block. -/
theorem Sound.mem_nil (h : Sound cfg s) (hz : s.phead = Head.zero) : Fresh cfg s [] [] 0 := by
  rcases h with ⟨_, hmem⟩ | ⟨spine, _, hopen⟩ | hfull
  · exact hmem
  · have hb := hopen.block
    rw [hz] at hb
    exact absurd (List.head?_eq_none_iff.mp hb.symm) hopen.ne
  · have hpos := cfg.bl_pos
    have hzero : s.phead.index = 0 := by rw [hz]; rfl
    omega

theorem pInitSwap_outline (hsound : Sound cfg s₀)
    (h : Outline cfg t it s₀ s (.running (.pInitSwap p)))
    (hs : step cfg t .run s (.pInitSwap p) = some r) : Outline cfg t it s₀ r.1 (.running r.2) := by
  obtain ⟨rfl, hask, hnil, hz⟩ := h
  simp only [step, stepWith] at hs
  split at hs <;> cases hs
  · exact ⟨rfl, hask, hnil, hz⟩
  · rename_i a ha
    have hmem := hsound.mem_nil hz
    obtain ⟨_, hnext, hal⟩ := hmem.pool a ha
    refine ⟨hask, hnil, ⟨rfl, fun _ _ _ => rfl, .inl ⟨rfl, rfl⟩⟩, (Spare.nil s).no_pool ha,
      ⟨⟨by simp, rfl, ⟨rfl, hnext⟩, fun b hb => ?_, fun b hb => absurd hb (by simp)⟩, .nil,
        fun b hb => ?_⟩, hz, hz⟩
    · obtain rfl : b = a := by simpa using hb
      exact hal
    · obtain rfl : b = a := by simpa using hb
      exact hmem.clean b (.inr ha)

theorem pInitAlloc_outline (hsound : Sound cfg s₀)
    (h : Outline cfg t it s₀ s (.running (.pInitAlloc p)))
    (hs : step cfg t (.alloc as) s (.pInitAlloc p) = some r) :
    Outline cfg t it s₀ r.1 (.running r.2) := by
  obtain ⟨rfl, hask, hnil, hz⟩ := h
  simp only [step, stepWith] at hs
  split at hs
  · rename_i a
    split at hs
    · cases hs
    · rename_i hfree
      have hfree : ∀ b ∈ [a], s.arena.allocated b = false := by simpa using hfree
      cases hs
      have hspec := newChain_spec s (List.cons_ne_nil a []) (List.nodup_singleton a)
      have hmem := (hsound.mem_nil hz).newChain (List.cons_ne_nil a [])
        (List.nodup_singleton a) hfree
      refine ⟨hask, hnil, (Untouched.refl s).spare (Spare.nil s) _ (fun b _ hb => ?_) rfl rfl rfl,
        (Spare.nil s).newChain hfree rfl, ?_, hz, hz⟩
      · exact hspec.old b fun hc => by simp [hfree b hc] at hb
      · refine ⟨⟨by simp, rfl, hspec.path, fun b hb => ?_, fun b hb => ?_⟩, .nil,
          fun b hb => hb.elim (hspec.clean b) fun hb => hmem.clean b (.inr hb)⟩
        · rw [newChain_allocated, if_pos (by simpa using hb)]
        · obtain ⟨_, hnext, hal⟩ := hmem.pool b hb
          refine ⟨fun hc => ?_, hnext, hal⟩
          have hb' : s.pool = some b := hb
          have := ((hsound.mem_nil hz).pool b hb').2.2
          simp [hfree b (by simpa using hc)] at this
  · cases hs

theorem pInitCas_outline {root : Addr}
    (h : Outline cfg t it s₀ s (.running (.pInitCas p root)))
    (hs : step cfg t .run s (.pInitCas p root) = some r) :
    Outline cfg t it s₀ r.1 (.running r.2) := by
  obtain ⟨hask, hnil, hsame, hspare, hmem, hz₀, hz⟩ := h
  simp only [step, stepWith, if_pos hz] at hs
  cases hs
  refine ⟨hask, hnil, ⟨hsame.log, hsame.kept, .inr ⟨hz₀, root, rfl, rfl⟩⟩,
    ⟨fun a ha => absurd ha (by simp), hspare.grows, hspare.pool⟩, ?_, rfl⟩
  refine ⟨⟨hmem.nodup, hmem.priv, rfl, hmem.allocated, hmem.pool⟩, fun q b _ hb => ?_,
    fun b hb => hmem.clean b (.inr (hb.resolve_left List.not_mem_nil))⟩
  exact (hmem.clean b (.inl (List.mem_of_getElem? hb))).2 _

theorem pInitStore_outline {root : Addr}
    (h : Outline cfg t it s₀ s (.running (.pInitStore p root)))
    (hs : step cfg t .run s (.pInitStore p root) = some r) :
    Outline cfg t it s₀ r.1 (.running r.2) := by
  obtain ⟨hask, hnil, hsame, hspare, hmem, hhead⟩ := h
  cases hs
  refine ready_loop [root] ⟨hask, hsame, ?_, ?_, hhead, rfl, by simp, cfg.bl_pos, ?_⟩
  · rw [hnil]
    exact ⟨hspare.spare, hspare.grows, hspare.pool⟩
  · rw [hnil]
    exact { hmem with }
  · exact fun hc => absurd hc (by simp [Head.fromPtr, Head.zero])

theorem pSwap_outline {need : ℕ}
    (h : Outline cfg t it s₀ s (.running (.pSwap p phead need)))
    (hs : step cfg t .run s (.pSwap p phead need) = some r) :
    Outline cfg t it s₀ r.1 (.running r.2) := by
  obtain ⟨⟨spine, h⟩, rfl⟩ := h
  simp only [step, stepWith] at hs
  split at hs
  · cases hs
    exact ready_grown h
  · rename_i a ha
    have hmem := h.mem.swap ha
    have hspare := h.spare.no_pool ha
    have hsame := h.same.spare h.spare ({ s with pool := none }.give p.blocks [a]).1
      (fun b hb _ => give_heap hb)
    obtain ⟨heap, heq⟩ := give_rest { s with pool := none } p.blocks [a]
    rw [heq] at hs hmem hsame
    cases hs
    exact ready_grown (p := { p with blocks := p.blocks ++ [a] }) ⟨h.asked, hsame rfl rfl rfl,
      ⟨hspare.spare, hspare.grows, hspare.pool⟩, hmem, h.read, h.opened⟩

theorem pAlloc_outline {need : ℕ}
    (h : Outline cfg t it s₀ s (.running (.pAlloc p phead need)))
    (hs : step cfg t (.alloc as) s (.pAlloc p phead need) = some r) :
    Outline cfg t it s₀ r.1 (.running r.2) := by
  obtain ⟨⟨spine, h⟩, rfl, hlt⟩ := h
  simp only [step, stepWith] at hs
  split at hs
  · rename_i hcond
    obtain ⟨hlen, hnd, hfree⟩ := hcond
    have henough : pushNeed cfg p phead - p.blocks.length * cfg.bl ≤ as.length * cfg.bl := by
      rw [hlen]
      exact le_divCeil_mul _ cfg.bl_pos
    have hne : as ≠ [] := by
      rintro rfl
      simp only [List.length_nil, Nat.zero_mul] at henough
      omega
    have hspec := newChain_spec s hne hnd
    have hpool : (s.newChain as).pool = s.pool := by
      obtain ⟨_, _, hrest⟩ := hspec.rest
      rw [hrest]
    have hmem := h.mem.grow hne hnd hfree
    have hspare := h.spare.newChain hfree hpool
    have hsame := h.same.spare h.spare ((s.newChain as).give p.blocks as).1
      (fun b hb hal => by
        rw [give_heap hb]
        exact hspec.old b fun hc => by simp [hfree b hc] at hal)
    obtain ⟨heap, heq⟩ := give_rest (s.newChain as) p.blocks as
    obtain ⟨heap', arena', hrest⟩ := hspec.rest
    rw [heq] at hs hmem hsame
    cases hs
    refine ⟨⟨spine, h.asked, hsame ?_ ?_ ?_, ⟨hspare.spare, hspare.grows, hspare.pool⟩, hmem, ?_,
      h.opened⟩, ?_⟩
    · rw [hrest]
    · rw [hrest]
    · rw [hrest]
    · rw [hrest]
      exact h.read
    · show pushNeed cfg p phead ≤ (p.blocks ++ as).length * cfg.bl
      rw [List.length_append, Nat.add_mul]
      omega
  · cases hs

/-! ### From the reservation on -/

@[simp] theorem Source.items_length (it : Source T) : it.items.length = it.len := by
  simp [Source.items]

theorem Source.items_get {it : Source T} {k : ℕ} (hk : k < it.len) :
    (it.items[k]?).join = (it.next k).item? := by
  simp [Source.items, hk]

theorem Asked.length (h : Asked it p) : p.items.length = it.len := by
  rw [h.1, Source.items_length]

/-- Steps that leave the chain, the slots, the heads and the log alone. -/
theorem RangeSettled.congr {i : ℕ} (h : RangeSettled cfg t it s₀ s spine i)
    (hheap : s'.heap = s.heap) (hp : s'.phead = s.phead) (hc : s'.chead = s.chead)
    (hlog : s'.log = s.log) : RangeSettled cfg t it s₀ s' spine i where
  took := ⟨by rw [Starts, hc]; exact h.took.starts, h.took.index, by rw [hlog]; exact h.took.log⟩
  path := h.path.congr fun a _ => by rw [hheap]
  nodup := h.nodup
  behind := by
    unfold PheadBehind
    rw [hp]
    exact h.behind
  slots := fun k hk => by
    unfold Slotted
    rw [hheap]
    exact h.slots k hk

/-- The slot loop goes on, or the range is settled. -/
theorem filled_on (spine : List Addr) (i : ℕ) (h : Filled cfg t it s₀ s f spine i) :
    Outline cfg t it s₀ s (.running (fillOn cfg f)) := by
  unfold fillOn
  rw [h.asked.length]
  split
  · rename_i hlt
    split
    · exact ⟨spine, i, h, hlt⟩
    · rename_i hidx
      exact ⟨spine, i, h, hlt, fun hc => absurd hc hidx⟩
  · refine ⟨h.asked, spine, i, h.took, h.range.path, h.nodup, h.behind, fun k hk => h.slots k ?_⟩
    omega

/-- The walk goes on to the successor, or stops. -/
theorem walk_on {i j : ℕ} (h : Walk cfg t it s₀ s w spine i j)
    (hlt : cfg.bl ≤ w.index + w.remaining → j + 1 < spine.length) :
    Outline cfg t it s₀ s (.running (walkOn cfg w spine[j + 1]?)) := by
  rcases h.here.on hlt with ⟨hin, hw⟩ | ⟨w', hw, hnext, hp, hph, hroot⟩ <;> rw [hw]
  · exact ⟨spine, i, j, h, hin⟩
  · exact ⟨spine, i, j + 1, hp ▸ h.asked, hp ▸ h.none_left, h.took, hroot ▸ h.fresh, hph ▸ h.start,
      hnext⟩

/-- The reservation: the range begins where `phead` stands. -/
theorem pCas_outline (h : Outline cfg t it s₀ s (.running (.pCas p phead)))
    (hs : step cfg t .run s (.pCas p phead) = some r) :
    Outline cfg t it s₀ r.1 (.running r.2) := by
  obtain ⟨⟨spine, h⟩, hneed⟩ := h
  have hidx := h.opened.index
  have hlen := h.asked.length
  have hspine : 0 < spine.length := List.length_pos_of_ne_nil h.opened.ne
  simp only [step, stepWith, if_pos h.read] at hs
  cases hs
  have hroom := h.opened.room hneed
  rw [hlen] at hroom
  have hstarts : Starts s₀ s spine phead.index := by
    unfold Starts
    rw [← h.opened.block, ← h.read]
    rcases h.same.heads with ⟨hp, _⟩ | ⟨hz, root, hp, hch⟩
    · have hz : s₀.phead ≠ Head.zero := by
        intro hz
        have hb := h.opened.block
        rw [← h.read, hp, hz] at hb
        exact h.opened.ne (List.head?_eq_none_iff.mp hb.symm)
      rw [if_neg hz, hp]
    · rw [if_pos hz, hch, hp]
      rfl
  have htook : Took cfg t it s₀ (reserved cfg t s p phead).1 spine phead.index :=
    ⟨hstarts, hidx, _, by rw [← h.same.log, ← h.asked.1]; rfl⟩
  have hmem : Fresh cfg (reserved cfg t s p phead).1 spine p.blocks phead.index :=
    { h.mem with }
  have hhead : phead.block = spine[0]? := by rw [h.opened.block, List.head?_eq_getElem?]
  show Outline cfg t it s₀ _ (.running (if min (phead.index + p.items.length) cfg.bl = cfg.bl
    then _ else _))
  rw [hlen]
  split
  · exact ⟨spine, phead.index, 0, h.asked, rfl, htook, hmem, ⟨h.opened.block, rfl⟩,
      hmem.toMem, hhead, hspine, hidx, by simp, hroom⟩
  · have hin : phead.index + it.len < cfg.bl := by omega
    have hone := Nat.mul_le_mul_right cfg.bl hspine
    refine filled_on spine phead.index ⟨h.asked, htook, (List.nodup_append'.mp hmem.nodup).1,
      ⟨?_, ?_, by omega⟩, ⟨hmem.path, ?_, ?_, Nat.zero_le _, ?_⟩,
      fun k hk => absurd hk (Nat.not_lt_zero k), hmem.blank⟩
    · rwa [Nat.div_eq_of_lt hin]
    · show min (phead.index + p.items.length) cfg.bl = _
      rw [hlen, Nat.mod_eq_of_lt hin]
      omega
    · rwa [Nat.add_zero, Nat.div_eq_of_lt hidx]
    · exact (Nat.mod_eq_of_lt hidx).symm
    · show phead.index + p.items.length < _
      omega

/-- The load of a successor. -/
theorem pNext_outline (h : Outline cfg t it s₀ s (.running (.pNext w)))
    (hs : step cfg t .run s (.pNext w) = some r) :
    Outline cfg t it s₀ r.1 (.running r.2) := by
  obtain ⟨spine, i, j, h⟩ := h
  rw [h.here.next] at hs
  cases hs
  split
  · rename_i hlt
    exact walk_on h fun _ => hlt
  · have := h.here.lt
    exact ⟨spine, i, j, h, by omega⟩

/-- The last block of the spine gets the first private one as its successor. -/
theorem pLink_outline (h : Outline cfg t it s₀ s (.running (.pLink w)))
    (hs : step cfg t .run s (.pLink w) = some r) :
    Outline cfg t it s₀ r.1 (.running r.2) := by
  obtain ⟨spine, i, j, h, hlast⟩ := h
  obtain ⟨a, hget, hstep, hhere⟩ := h.here.link (t := t) hlast
  rw [hstep] at hs
  cases hs
  have hne : spine ≠ [] := List.ne_nil_of_length_pos (by omega)
  obtain ⟨_, hblank, hclean⟩ := h.fresh.link hget hlast
  have hstarts := h.took.starts
  have hstart := h.start
  have hhead : (spine ++ w.root).head? = spine.head? := List.head?_append_of_ne_nil spine hne
  rw [Starts, ← hhead] at hstarts
  rw [← hhead] at hstart
  exact walk_on ⟨h.asked, h.none_left, ⟨hstarts, h.took.index, h.took.log⟩,
    ⟨hhere.mem, hblank, hclean⟩, hstart, hhere⟩ fun hge => hhere.stays rfl hge

/-- The store of `phead` behind the range. -/
theorem pStore_outline
    (h : Outline cfg t it s₀ s (.running (.pStore w next)))
    (hs : step cfg t .run s (.pStore w next) = some r) :
    Outline cfg t it s₀ r.1 (.running r.2) := by
  obtain ⟨spine, i, j, h, hlt⟩ := h
  have hi := h.took.index
  have hrest := h.here.rest
  cases hs
  -- the position behind the range lies in the block the walk has come to
  obtain ⟨hdiv, hmod⟩ : (i + it.len) / cfg.bl = j ∧
      (i + it.len) % cfg.bl = w.index + w.remaining := by
    rw [Nat.div_mod_unique cfg.bl_pos, ← hrest, Nat.mul_comm]
    omega
  have hroom : i + it.len < spine.length * cfg.bl := by
    rw [← Nat.div_lt_iff_lt_mul cfg.bl_pos, hdiv]
    exact h.here.lt
  refine filled_on spine i ⟨h.asked, ⟨h.took.starts, hi, h.took.log⟩,
    (List.nodup_append'.mp h.fresh.nodup).1, ⟨?_, hmod.symm, hroom⟩,
    ⟨h.fresh.path, ?_, ?_, Nat.zero_le _, ?_⟩, fun k hk => absurd hk (Nat.not_lt_zero k),
    h.fresh.blank⟩
  · rw [hdiv]
    exact h.here.block
  · rw [Nat.add_zero, Nat.div_eq_of_lt hi, ← List.head?_eq_getElem?]
    exact h.start.1
  · rw [Nat.add_zero, Nat.mod_eq_of_lt hi]
    exact h.start.2
  · show i + w.p.items.length < _
    rwa [h.asked.length]

theorem put_has (x : Slot T) (v : Option T) : (x.put v).Has v := by
  cases v with
  | none => rfl
  | some v => exact ⟨rfl, rfl⟩

theorem deref_eq {p : Option Addr} {k : Addr → Shared T × Pc T}
    (hp : p = some a) (hs : deref s p k = some r) : r = k a := by
  subst hp
  exact (Option.some.inj hs).symm

/-- The wait for the successor that comes before the last slot of a block. -/
theorem pWait_outline (h : Outline cfg t it s₀ s (.running (.pWait f)))
    (hs : step cfg t .run s (.pWait f) = some r) :
    Outline cfg t it s₀ r.1 (.running r.2) := by
  obtain ⟨spine, i, h, hlt⟩ := h
  obtain ⟨a, hget⟩ := h.range.get
  have hnext : (s.heap a).next = spine[(i + f.done) / cfg.bl + 1]? := path_next h.range.path hget
  obtain rfl := deref_eq (h.range.block.trans hget) hs
  split
  · exact ⟨spine, i, h, hlt⟩
  · rename_i n hsome
    rw [hsome] at hnext
    exact ⟨spine, i, h, hlt, fun _ => hnext⟩

/-- Different places of the range are different slots. -/
theorem place_inj (hnd : spine.Nodup) {p q : ℕ} (hp : spine[p / cfg.bl]? = some a)
    (hq : spine[q / cfg.bl]? = some a) (hmod : p % cfg.bl = q % cfg.bl) : p = q := by
  have hlt := (List.getElem?_eq_some_iff.mp hp).1
  have hdiv := (List.getElem?_inj hlt hnd).mp (hp.trans hq.symm)
  rw [← Nat.div_add_mod p cfg.bl, ← Nat.div_add_mod q cfg.bl, hdiv, hmod]

/-- A write to one place of the spine leaves the others alone. -/
theorem setSlot_other (hnd : spine.Nodup) {p q : ℕ} {b : Addr} (x : Block T → Slot T)
    (hp : spine[p / cfg.bl]? = some a) (hq : spine[q / cfg.bl]? = some b) (hne : q ≠ p) :
    ((s.modBlock a fun b => b.setSlot (p % cfg.bl) (x b)).heap b).slots (q % cfg.bl)
      = (s.heap b).slots (q % cfg.bl) := by
  show (update s.heap a _ b).slots _ = _
  by_cases hba : b = a
  · subst hba
    rw [update_self]
    exact update_of_ne (fun hc => hne (place_inj hnd hq hp hc)) _ _
  · rw [update_of_ne hba]

/-- The write of a slot. -/
theorem pWrite_outline
    (h : Outline cfg t it s₀ s (.running (.pWrite f next)))
    (hs : step cfg t .run s (.pWrite f next) = some r) :
    Outline cfg t it s₀ r.1 (.running r.2) := by
  obtain ⟨spine, i, h, hlt, hnext⟩ := h
  obtain ⟨a, hget⟩ := h.range.get
  obtain ⟨hp, hd, hb, hi⟩ := h.range.advance hnext
  have hroom := h.range.room
  obtain rfl := deref_eq (h.range.block.trans hget) hs
  rw [h.asked.1, Source.items_get hlt, h.range.index]
  refine filled_on spine i ⟨hp ▸ h.asked, ⟨h.took.starts, h.took.index, h.took.log⟩, h.nodup,
    h.behind, ⟨?_, hd ▸ hb, hd ▸ hi, ?_, hp ▸ hroom⟩, fun k hk => ?_, fun q b hq hqb => ?_⟩
  · exact h.range.path.setSlot _ fun b => (b.slots _).put _
  · rw [hp, hd, h.asked.length]
    exact hlt
  · rw [hd] at hk
    rcases Nat.lt_succ_iff_lt_or_eq.mp hk with hk | rfl
    · obtain ⟨b, hbk, hhas⟩ := h.slots k hk
      refine ⟨b, hbk, ?_⟩
      rwa [setSlot_other h.nodup _ hget hbk (by omega)]
    · refine ⟨a, hget, ?_⟩
      show ((update s.heap a _ a).slots _).Has _
      rw [update_self]
      show (update (s.heap a).slots _ _ _).Has _
      rw [update_self]
      exact put_has _ _
  · rw [hd] at hq
    rw [setSlot_other h.nodup _ hget hqb (by omega)]
    exact h.blank q b (by omega) hqb

/-- The blocks that are left are dropped, then the call returns. -/
theorem pDrop_outline (h : Outline cfg t it s₀ s (.running (.pDrop p)))
    (hs : step cfg t .run s (.pDrop p) = some r) :
    Outline cfg t it s₀ r.1 (.ofPc r.2) := by
  obtain ⟨hask, spine, i, h⟩ := h
  simp only [step, stepWith] at hs
  split at hs <;> cases hs
  · obtain ⟨vs, hvs⟩ := hask.2
    rw [hvs]
    exact .inr ⟨spine, i, h.congr rfl rfl rfl rfl⟩
  · exact ⟨hask, spine, i, h.congr rfl rfl rfl rfl⟩

/-! ### Whole calls -/

theorem outline_ofPc (h : Outline cfg t it s₀ s (.running pc)) :
    Outline cfg t it s₀ s (.ofPc pc) := by
  cases pc with
  | idle => exact h.elim
  | _ => exact h

/-- A panic of `next` leaves the slot blank that the item was for. -/
theorem panics_outline (h : Outline cfg t it s₀ s (.running pc))
    (hp : it.panics pc = some blocks) : LeftBlank cfg t it s₀ s := by
  cases pc with
  | pWrite f next =>
    obtain ⟨spine, i, h, hlt, _⟩ := h
    have hn : it.next f.done = .panics := by
      simp only [Source.panics] at hp
      split at hp
      · assumption
      · cases hp
    obtain ⟨a, hget⟩ := h.range.get
    exact ⟨spine, i, f.done, a, h.took, h.range.path, hlt, hn, hget, h.blank _ _ le_rfl hget⟩
  | _ => cases hp

/-- A slot that is left blank is not settled. -/
theorem LeftBlank.not_settles (h : LeftBlank cfg t it s₀ s) : ¬ Settles cfg t it s₀ s := by
  obtain ⟨spine, i, k, b, htook, hpath, hk, hpanics, hb, hzero⟩ := h
  rintro (hsame | ⟨spine', i', hset⟩)
  · obtain ⟨pos, hlog⟩ := htook.log
    simp [hsame.log] at hlog
  · -- the range is where it is: its first block and the links determine the spine
    obtain ⟨hhead, rfl⟩ := Prod.mk.inj (htook.starts.trans hset.took.starts.symm)
    have hpath' : LinkPath s.next spine.head? spine' none := hhead ▸ hset.path
    obtain rfl := path_unique hpath hpath'
    obtain ⟨b', hb', hhas⟩ := hset.slots k hk
    obtain rfl := Option.some.inj (hb.symm.trans hb')
    rw [hpanics] at hhas
    have hskip : ((s.heap b).slots ((i + k) % cfg.bl)).state = .skip := hhas
    simp [hzero] at hskip

theorem at_outline (hsound : Sound cfg s₀) (h : Outline cfg t it s₀ s (.running pc))
    {act : Act T} (hs : step cfg t act s pc = some r) :
    Outline cfg t it s₀ r.1 (.ofPc r.2) := by
  cases act with
  | call op =>
    cases pc with
    | idle => exact h.elim
    | _ => cases op <;> exact absurd hs (by simp [step, stepWith])
  | run =>
    cases pc with
    | pLoad p => exact outline_ofPc (pLoad_outline hsound h hs)
    | pInitSwap p => exact outline_ofPc (pInitSwap_outline hsound h hs)
    | pInitCas p root => exact outline_ofPc (pInitCas_outline h hs)
    | pInitStore p root => exact outline_ofPc (pInitStore_outline h hs)
    | pReload p =>
      obtain ⟨rfl, hask, hnil, hfull⟩ := h
      cases hs
      unfold pushLoop
      rw [if_pos hfull]
      exact ⟨rfl, hask, hnil, hfull⟩
    | pSwap p phead need => exact outline_ofPc (pSwap_outline h hs)
    | pCas p phead => exact outline_ofPc (pCas_outline h hs)
    | pNext w => exact outline_ofPc (pNext_outline h hs)
    | pLink w => exact outline_ofPc (pLink_outline h hs)
    | pStore w next => exact outline_ofPc (pStore_outline h hs)
    | pWait f => exact outline_ofPc (pWait_outline h hs)
    | pWrite f next => exact outline_ofPc (pWrite_outline h hs)
    | pDrop p => exact pDrop_outline h hs
    | pInitAlloc | pAlloc => simp [step, stepWith] at hs
    | _ => exact h.elim
  | spurious =>
    cases pc with
    | pCas p phead =>
      obtain ⟨⟨spine, h⟩, _⟩ := h
      cases hs
      rw [← h.read] at h
      exact outline_ofPc (ready_loop spine h)
    | cCas => exact h.elim
    | _ => simp [step, stepWith] at hs
  | alloc as =>
    cases pc with
    | pInitAlloc p => exact outline_ofPc (pInitAlloc_outline hsound h hs)
    | pAlloc p phead need => exact outline_ofPc (pAlloc_outline h hs)
    | _ => simp [step, stepWith] at hs

/-- A step of the call keeps the outline. -/
theorem call_outline (hsound : Sound cfg s₀) {e : Call T} (h : Outline cfg t it s₀ s e)
    {act : Option (Act T)} {r : Shared T × Call T} (hs : Call.step cfg t it act s e = some r) :
    Outline cfg t it s₀ r.1 r.2 := by
  cases e with
  | running pc =>
    cases act with
    | none =>
      cases pc with
      | pInitAlloc p =>
        obtain ⟨rfl, _⟩ := h
        cases hs
        exact Untouched.refl s
      | pAlloc p phead need =>
        obtain ⟨⟨spine, h⟩, _⟩ := h
        cases hs
        exact h.same
      | _ => simp [Call.step] at hs
    | some act =>
      simp only [Call.step] at hs
      split at hs
      · rename_i hp
        cases hs
        exact panics_outline h hp
      · obtain ⟨r', hstep, rfl⟩ := Option.map_eq_some_iff.mp hs
        exact at_outline hsound h hstep
  | unwinding cause blocks =>
    cases blocks with
    | nil =>
      cases hs
      cases cause <;> exact h
    | cons b rest =>
      cases hs
      cases cause with
      | allocation => exact ⟨h.log, h.kept, h.heads⟩
      | panic =>
        obtain ⟨spine, i, k, a, htook, hrest⟩ := h
        exact ⟨spine, i, k, a, ⟨htook.starts, htook.index, htook.log⟩, hrest⟩
  | returned | unwound => simp [Call.step] at hs

/-- Every state of a call meets the outline. -/
theorem run_outline (hsound : Sound cfg s₀) {r : Shared T × Call T}
    (h : Call.Runs cfg t it (s₀, Call.start it) r) :
    Outline cfg t it s₀ r.1 r.2 := by
  induction h with
  | refl =>
    show Outline cfg t it s₀ s₀ (if _ then _ else _)
    split
    · exact .inl ⟨by assumption, rfl⟩
    · exact ⟨rfl, ⟨rfl, _, rfl⟩, rfl⟩
  | tail _ hs ih =>
    obtain ⟨act, hs⟩ := hs
    exact call_outline hsound ih hs

end Outline

/-! ## Settling -/

variable {T : Type*} {cfg : Config}

/-- **`push_batch` settles what it reserves exactly if no `next` that it makes panics.**
Every state of a run without stale claims is sound; and from a sound state, whatever the
iterator does, the call dereferences no null pointer, a call that returns has put each
slot of its range to what the iterator yielded for it, a missing item being a skip, a
call that unwinds for want of memory has reserved nothing and touched no block in use,
and one that unwinds from a panic has done neither. -/
theorem push_batch_settles :
    (∀ (m : ℕ) (c : Conf T), (calmWords T cfg m).Reachable c → Sound cfg c.sh) ∧
    ∀ (it : Source T) (t : Tid) (s₀ s : Shared T) (e : Call T), Sound cfg s₀ →
      Call.Runs cfg t it (s₀, Call.start it) (s, e) →
      e ≠ .running .fault ∧
      (e = .returned → (it.len = 0 ∧ s = s₀) ∨
        ∃ spine i, RangeSettled cfg t it s₀ s spine i) ∧
      (e = .unwound .allocation → Untouched s₀ s) ∧
      (e.ended = true → (Settles cfg t it s₀ s ↔ e ≠ .unwound .panic)) := by
  refine ⟨fun m c hc => ?_, fun it t s₀ s e hsound hrun => ?_⟩
  · have hexact := words_exact (fun _ _ _ _ _ h => h.2) hc
    exact sound_of_run (Interleave.System.restrict_mono (fun _ _ _ _ _ h => h.1) hexact)
  · have h := run_outline hsound hrun
    refine ⟨?_, ?_, ?_, fun hend => ⟨?_, fun hne => ?_⟩⟩
    · rintro rfl
      exact h
    · rintro rfl
      exact h
    · rintro rfl
      exact h
    · rintro hset rfl
      exact h.not_settles hset
    · cases e with
      | returned =>
        rcases h with ⟨_, rfl⟩ | h
        · exact .inl (.refl s)
        · exact .inr h
      | unwound cause =>
        cases cause with
        | allocation => exact .inl h
        | panic => exact absurd rfl hne
      | running | unwinding => cases hend

/-! ## Runs on given choices -/

/-- Run a call on the choices of a list. -/
def Call.exec (cfg : Config) (t : Tid) (it : Source T) :
    List (Option (Act T)) → Shared T × Call T → Option (Shared T × Call T)
  | [], r => some r
  | a :: rest, r => (Call.step cfg t it a r.1 r.2).bind (exec cfg t it rest)

/-- Such a run is a run of the call. -/
theorem Call.exec_runs {t : Tid} {it : Source T} {acts : List (Option (Act T))}
    {r r' : Shared T × Call T} (h : Call.exec cfg t it acts r = some r') :
    Call.Runs cfg t it r r' := by
  induction acts generalizing r with
  | nil =>
    cases h
    exact .refl
  | cons a rest ih =>
    obtain ⟨r₁, hstep, hrest⟩ := Option.bind_eq_some_iff.mp h
    exact .head ⟨a, hstep⟩ (ih hrest)

/-- On a new queue: provision the first block and the second, then take `n` steps. -/
def twoBlocks (n : ℕ) : List (Option (Act ℕ)) :=
  [some .run, some .run, some (.alloc [100]), some .run, some .run, some .run,
    some (.alloc [101])] ++ List.replicate n (some .run)

/-- A new queue is sound. -/
theorem sound_new : Sound cfg (Shared.new : Shared T) :=
  .inl ⟨rfl,
    ⟨List.nodup_nil, rfl, rfl, by simp, fun _ ha => absurd ha (by simp [Shared.new])⟩, .nil,
    fun _ ha => absurd ha (by simp [Shared.new])⟩

/-- An iterator that reports two items and yields one. -/
def shortSource : Source ℕ := ⟨2, fun k => if k = 0 then .item 7 else .exhausted⟩

/-- A short iterator on blocks of two slots: the second slot is skipped. -/
theorem push_batch_settles_short : ∃ s : Shared ℕ,
    Call.Runs twoSlots 0 shortSource (Shared.new, Call.start shortSource) (s, .returned) ∧
    ∃ spine i, RangeSettled twoSlots 0 shortSource Shared.new s spine i := by
  obtain ⟨r, hexec, hret⟩ : ∃ r, Call.exec twoSlots 0 shortSource (twoBlocks 10)
      (Shared.new, Call.start shortSource) = some r ∧ r.2 = .returned := ⟨_, rfl, rfl⟩
  obtain ⟨s, e⟩ := r
  obtain rfl : e = .returned := hret
  have hrun := Call.exec_runs hexec
  have h := ((@push_batch_settles ℕ twoSlots).2 shortSource 0 _ s .returned sound_new hrun).2.1 rfl
  exact ⟨s, hrun, h.resolve_left fun hc => absurd hc.1 (by decide)⟩

/-- An iterator that reports two items and panics instead of the second. -/
def panickingSource : Source ℕ := ⟨2, fun k => if k = 0 then .item 7 else .panics⟩

/-- **A panic leaves a reserved slot blank.**  The iterator panics after its first item.
The call unwinds with both slots reserved and `phead` in the next block, the second
slot is neither written nor skipped, and an iterator of a consumer that comes to it
stays there. -/
theorem panic_leaves_slot_blank : ∃ s : Shared ℕ, Sound twoSlots (Shared.new : Shared ℕ) ∧
    Call.Runs twoSlots 0 panickingSource (Shared.new, Call.start panickingSource)
      (s, .unwound .panic) ∧
    s.log.reservations = [(0, 0, [some 7, none])] ∧ s.chead = Head.fromPtr (some 100) ∧
    s.phead.block = some 101 ∧ ((s.heap 100).slots 1).state = .zero ∧
    ∀ (u : Tid) (x : Iter ℕ), x.block = some 100 → x.index = 1 →
      step twoSlots u .run s (.iRead x) = some (s, .iRead x) := by
  obtain ⟨r, hexec, hret, hlog, hch, hph, hslot⟩ : ∃ r, Call.exec twoSlots 0 panickingSource
      (twoBlocks 10) (Shared.new, Call.start panickingSource) = some r ∧ r.2 = .unwound .panic ∧
      r.1.log.reservations = [(0, 0, [some 7, none])] ∧ r.1.chead = Head.fromPtr (some 100) ∧
      r.1.phead.block = some 101 ∧ ((r.1.heap 100).slots 1).state = .zero :=
    ⟨_, rfl, rfl, by decide +kernel, by decide +kernel, by decide +kernel, by decide +kernel⟩
  obtain ⟨s, e⟩ := r
  obtain rfl : e = .unwound .panic := hret
  refine ⟨s, sound_new, Call.exec_runs hexec, hlog, hch, hph, hslot, fun u x hb hi => ?_⟩
  have hslot : ((s.heap 100).slots 1).state = .zero := hslot
  simp [step, stepWith, hb, hi, deref, hslot]

end Mpmc
