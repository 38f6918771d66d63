/-
# The MPMC queue on one thread

Runs in which only thread `t` moves, from a configuration in which every thread
is idle.  `Op.spec` is the list specification of one call, `Behaves` that of a
trace of finished calls.  `SoloAt` is what a lone thread knows at each program
counter beyond the concurrent proof outline: its snapshots of the heads are
current, its claims are as long as possible, and it stands inside no boundary
that someone else holds.  `solo_step` shows that every step keeps it, so the
trace of every run on one thread behaves as a list (`solo_ok`).

A lone thread never claims with a stale snapshot (`Current.abaFree`), so the
proviso of the concurrent proof outline holds in all these runs.
-/
import Ubq.Mpmc.Emptiness

namespace Mpmc

open Function

variable {T : Type*} {cfg : Config} {t u : Tid} {s s' : Shared T} {g g' : Ghost T}
variable {pc : Pc T} {q : Pop} {it : Iter T} {w : PopWalk} {c : Conf T}

/-! ## The list specification -/

/-- One call on the list `q`: its result and the list it leaves. -/
def Op.spec (q : List T) : Op T → Res T × List T
  | .pushBatch items => (.pushed, q ++ items)
  | .popBatch size keep =>
    (.popped (min size q.length) ((q.take size).take keep), q.drop size)
  | .isEmpty => (.answer q.isEmpty, q)

/-- Where a lone thread starts: the calls finished so far, and the values in the
queue. -/
structure Origin (T : Type*) where
  trace : List (Tid × Op T × Res T)
  queue : List T

/-- A new queue. -/
def Origin.new : Origin T := ⟨[], []⟩

/-- The calls since the origin have the results of the list operations, and leave
the list `q`. -/
inductive Behaves (o : Origin T) : List (Tid × Op T × Res T) → List T → Prop
  | start : Behaves o o.trace o.queue
  | call {tr : List (Tid × Op T × Res T)} {q : List T} (t : Tid) (op : Op T) :
      Behaves o tr q → Behaves o (tr ++ [(t, op, (op.spec q).1)]) (op.spec q).2

theorem Behaves.of_spec {o : Origin T} {tr : List (Tid × Op T × Res T)} {q q' : List T}
    (h : Behaves o tr q) {op : Op T} {res : Res T} (hspec : op.spec q = (res, q')) (t : Tid) :
    Behaves o (tr ++ [(t, op, res)]) q' := by
  have hcall := h.call t op
  rwa [hspec] at hcall

/-- The items in the queue: reserved and not claimed. -/
def Shared.contents (s : Shared T) : List (Option T) := s.log.sent.drop s.log.claimedLen

/-! ## Current snapshots -/

/-- A snapshot of `chead` is the present value, in the present life of its block. -/
def Current (t : Tid) (s : Shared T) : Pc T → Prop
  | .cPhead _ chead | .cCas _ chead _ =>
    s.chead = chead ∧ chead.block.elim 0 (tokenOf s.linked) = s.seen t
  | _ => True

theorem Current.abaFree (h : Current t s pc) : AbaFree t s pc := by
  cases pc with
  | cCas q chead new => exact fun _ _ => h.2
  | _ => trivial

theorem pushLoop_current (p : Push T) (phead : Head) : Current t s (pushLoop cfg p phead) := by
  unfold pushLoop
  split
  · trivial
  · split <;> trivial

theorem grown_current (p : Push T) (phead : Head) (need : ℕ) :
    Current t s (grown cfg p phead need) := by
  unfold grown
  split <;> trivial

theorem fillOn_current (f : Fill T) : Current t s (fillOn cfg f) := by
  unfold fillOn
  split
  · split <;> trivial
  · trivial

theorem walkOn_current (w : PushWalk T) (next : Option Addr) :
    Current t s (walkOn cfg w next) := by
  unfold walkOn
  split <;> trivial

theorem popWalkOn_current (w : PopWalk) (next : Option Addr) :
    Current t s (popWalkOn cfg w next : Pc T) := by
  unfold popWalkOn
  split <;> trivial

theorem popLoop_current (q : Pop) : Current t (see s t) (popLoop cfg q s.chead) := by
  have hseen : s.chead.block.elim 0 (tokenOf s.linked) = (see s t).seen t := by
    show _ = update s.seen t _ t
    rw [update_self]
  unfold popLoop popLoopWith
  split
  · trivial
  · split <;> exact ⟨rfl, hseen⟩

theorem iterOn_current (it : Iter T) : Current t (iterOn s u it).1 (iterOn s u it).2 := by
  unfold iterOn
  split <;> trivial

theorem claimedOn_current (q : Pop) (chead new : Head) :
    Current t (claimedOn cfg s u q chead new).1 (claimedOn cfg s u q chead new).2 := by
  unfold claimedOn
  split
  · trivial
  · exact iterOn_current _

theorem iterRead_current (it : Iter T) (a : Addr) :
    Current t (iterRead cfg s it a).1 (iterRead cfg s it a).2 := by
  dsimp only [iterRead]
  split
  · trivial
  · split <;> trivial

theorem deref_current {p : Option Addr} {k : Addr → Shared T × Pc T}
    (hk : ∀ a, Current t (k a).1 (k a).2) : Post (fun r => Current t r.1 r.2) (deref s p k) :=
  deref_post (fun _ => trivial) fun a _ => hk a

/-- The steps of `push_batch` and `is_empty` do not read `chead` into a snapshot. -/
theorem push_current (hpc : pc.popping = false) :
    Post (fun r => Current t r.1 r.2) (step cfg t .run s pc) := by
  cases pc with
  | pLoad | pInitCas =>
    simp only [step, stepWith]
    split
    · trivial
    · exact pushLoop_current _ _
  | pCas p phead =>
    simp only [step, stepWith]
    split
    · show Current t _ (if _ then _ else _)
      split
      · trivial
      · exact fillOn_current _
    · exact pushLoop_current _ _
  | pInitSwap p =>
    simp only [step, stepWith]
    split <;> trivial
  | pInitStore | pReload => exact pushLoop_current _ _
  | pSwap p phead need =>
    simp only [step, stepWith]
    split <;> exact grown_current _ _ _
  | pNext w =>
    refine deref_current fun a => ?_
    split
    · trivial
    · exact walkOn_current _ _
  | pLink w => exact deref_current fun a => walkOn_current _ _
  | pStore w next => exact fillOn_current _
  | pWait f =>
    refine deref_current fun a => ?_
    split <;> trivial
  | pWrite f next => exact deref_current fun a => fillOn_current _
  | pDrop p =>
    simp only [step, stepWith]
    split
    · cases hret : p.ret with
      | user items => trivial
      | fill q chead => exact iterOn_current _
    · trivial
  | eLoad | eSpin =>
    simp only [step, stepWith]
    split <;> trivial
  | idle | fault | pInitAlloc | pAlloc => trivial
  | _ => simp [Pc.popping] at hpc

/-- `pop_batch` notes the life of the block with every load of `chead`. -/
theorem pop_current (h : Current t s pc) (hpc : pc.popping = true) :
    Post (fun r => Current t r.1 r.2) (step cfg t .run s pc) := by
  cases pc with
  | cLoad0 size keep =>
    simp only [step, stepWith]
    split <;> trivial
  | cReload q => exact popLoop_current q
  | cPhead q chead =>
    simp only [step, stepWith]
    split
    · split
      · trivial
      · exact h
    · exact h
  | cCas q chead new =>
    simp only [step, stepWith]
    split
    · split
      · exact claimedOn_current _ _ _
      · trivial
    · exact popLoop_current q
  | cPost q chead new =>
    simp only [step, stepWith]
    split
    · split <;> trivial
    · exact claimedOn_current _ _ _
  | cRevert q chead new phead =>
    simp only [step, stepWith]
    split <;> split <;> trivial
  | cNext w =>
    refine deref_current fun a => ?_
    split
    · split <;> trivial
    · exact popWalkOn_current _ _
  | cSpin w =>
    simp only [step, stepWith]
    split
    · split <;> trivial
    · trivial
  | cNext2 w => exact deref_current fun a => popWalkOn_current _ _
  | cStoreP | cStoreN => exact iterOn_current _
  | iRead it =>
    refine deref_current fun a => ?_
    dsimp only
    split
    · trivial
    · exact iterRead_current _ _
    · trivial
    · exact iterRead_current _ _
  | iNext it => exact deref_current fun a => trivial
  | iConsume it a =>
    simp only [step, stepWith]
    split
    · split <;> trivial
    · exact iterOn_current _
  | iPool it a =>
    simp only [step, stepWith]
    split
    · exact iterOn_current _
    · trivial
  | iFree it a => exact iterOn_current _
  | cWalk | iReset => trivial
  | _ => simp [Pc.popping] at hpc

/-- **A thread's own steps keep its snapshot current.** -/
theorem current_step (h : Current t s pc) {act : Act T} {r : Shared T × Pc T}
    (hs : step cfg t act s pc = some r) : Current t r.1 r.2 := by
  apply Post.of_pair hs
  apply step_cases
  case call =>
    intro op _ _
    cases op with
    | pushBatch | popBatch =>
      simp only [step, stepWith]
      split <;> trivial
    | isEmpty => trivial
  case run =>
    intro _
    cases hpc : pc.popping with
    | false => exact push_current hpc
    | true => exact pop_current h hpc
  case pCas => exact fun _ _ _ _ => pushLoop_current _ _
  case cCas => exact fun q _ _ _ _ => popLoop_current q
  case pInitAlloc => exact fun _ _ _ _ _ => trivial
  case pAlloc => exact fun _ _ _ _ _ _ _ _ _ => trivial

/-! ## What a lone thread knows -/

/-- From position `b` on the queue holds the list that the finished calls leave. -/
def Leaves (o : Origin T) (s : Shared T) (b : ℕ) : Prop :=
  ∃ q, Behaves o s.trace q ∧ s.log.sent.drop b = q.map some

/-- The calls so far leave the queue's contents. -/
def Settled (o : Origin T) (s : Shared T) : Prop := Leaves o s s.log.claimedLen

/-- The items are reserved; the call is not finished yet. -/
def Sending (o : Origin T) (s : Shared T) (items : List (Option T)) : Prop :=
  ∃ q, Behaves o s.trace q ∧ s.contents = q.map some ++ items

/-- A claim from position `b` on that takes all it can: the size asked for, or all
there is. -/
def Wants (o : Origin T) (s : Shared T) (b : ℕ) (q : Pop) : Prop :=
  Leaves o s b ∧ (q.len = q.size ∨ b + q.len = s.log.sent.length)

/-- The rest of the block of `chead` is claimed. -/
def Inside (cfg : Config) (o : Origin T) (s : Shared T) (q : Pop) (chead : Head) : Prop :=
  Wants o s (place cfg s chead) q ∧
    s.log.claimedLen = place cfg s chead + (cfg.bl - chead.index)

/-- The claim of the iterator is settled. -/
def Fetching (o : Origin T) (s : Shared T) (it : Iter T) : Prop :=
  Leaves o s it.base ∧ s.log.claimedLen = it.base + it.reserved ∧
    (it.reserved = it.size ∨ s.log.claimedLen = s.log.sent.length)

/-- The assertion of a lone thread at each program counter. -/
def SoloAt (cfg : Config) (o : Origin T) (s : Shared T) : Pc T → Prop
  | .idle | .pLoad _ | .pReload _ | .cLoad0 .. | .eLoad => Settled o s
  | .fault | .cRevert .. | .cSpin _ | .cNext2 _ => False
  | .pInitSwap _ | .pInitAlloc _ | .pInitCas .. => Settled o s ∧ s.phead = Head.zero
  | .pInitStore _ root => Settled o s ∧ s.phead = Head.fromPtr (some root)
  | .pSwap _ phead _ | .pAlloc _ phead _ | .pCas _ phead => Settled o s ∧ s.phead = phead
  | .pNext w | .pLink w | .pStore w _ => Sending o s w.p.items
  | .pWait f | .pWrite f _ => Sending o s f.p.items
  | .pDrop p => Sending o s p.items
  | .cReload q | .cPhead q _ | .cCas q _ _ => Wants o s s.log.claimedLen q
  | .cPost q chead new => Wants o s (place cfg s chead) q ∧
      s.log.claimedLen = place cfg s chead + (new.index - chead.index)
  | .cWalk q chead => Inside cfg o s q chead
  | .cNext w | .cStoreP w | .cStoreN w => Inside cfg o s w.q w.chead ∧ w.phead = s.phead
  | .iRead it | .iNext it | .iConsume it _ | .iReset it _ | .iPool it _ | .iFree it _ =>
    Fetching o s it
  | .eSpin phead => Settled o s ∧ s.phead = phead

/-- The other threads hold no head, do not initialise the queue, and owe no item. -/
structure Alone (t : Tid) (g : Ghost T) : Prop where
  init : ∀ u, u ≠ t → g.stage ≠ .opening u
  prod : ∀ u, u ≠ t → g.pown ≠ some u
  cons : ∀ u, u ≠ t → g.cown ≠ some u
  pending : ∀ u, u ≠ t → g.L.Pending u 0 0

theorem Alone.pown_none (ha : Alone t g) (hl : Local cfg t s g pc)
    (hpc : pc.holdsP = false) : g.pown = none :=
  eq_none_of_ne_some (fun hc => by simp [hl.holdsP.mp hc] at hpc) ha.prod

theorem Alone.cown_none (ha : Alone t g) (hl : Local cfg t s g pc)
    (hpc : pc.holdsC cfg = false) : g.cown = none :=
  eq_none_of_ne_some (fun hc => by simp [hl.holdsC.mp hc] at hpc) ha.cons

/-- A lone thread finds `phead` outside of a boundary. -/
theorem Alone.phead_lt (h : Inv cfg s g) (ha : Alone t g) (hl : Local cfg t s g pc)
    (hpc : pc.holdsP = false) : s.phead.index < cfg.bl := by
  have hp := h.phead
  unfold ProdHead at hp
  rw [ha.pown_none hl hpc] at hp
  obtain ⟨off, f, hoff, heq, _⟩ := hp
  rwa [heq]

/-- A lone thread finds `chead` outside of a boundary. -/
theorem Alone.chead_lt (h : Inv cfg s g) (ha : Alone t g) (hl : Local cfg t s g pc)
    (hpc : pc.holdsC cfg = false) (hst : g.stage = .ready) : s.chead.index < cfg.bl := by
  have hc := h.chead
  unfold ConsHead at hc
  rw [hst, ha.cown_none hl hpc] at hc
  obtain ⟨off, f, hoff, heq, _⟩ := hc
  rwa [heq]

/-- A lone thread finds both heads set, or none. -/
theorem Alone.ready (ha : Alone t g) (hl : Local cfg t s g pc)
    (hpc : pc.holdsI = false) (hst : g.stage ≠ .fresh) : g.stage = .ready := by
  cases hg : g.stage with
  | fresh => exact absurd hg hst
  | opening u =>
    by_cases hut : u = t
    · subst hut
      simp [hl.holdsI.mp hg] at hpc
    · exact absurd hg (ha.init u hut)
  | ready => rfl

/-! ## Positions and lists -/

theorem claimedLen_le (h : Inv cfg s g) : s.log.claimedLen ≤ s.log.sent.length := by
  rw [h.log.claim_len, h.log.sent_len]
  exact h.cpos_le

theorem level_iff_contents (h : Inv cfg s g) : Level s ↔ s.contents = [] := by
  have hle := claimedLen_le h
  unfold Level Shared.contents
  rw [List.drop_eq_nil_iff]
  omega

/-- With `phead` outside of a boundary its position is the end of the queue. -/
theorem sent_length (h : Inv cfg s g) (hi : s.phead.index < cfg.bl) :
    s.log.sent.length = g.pk * cfg.bl + s.phead.index :=
  h.log.sent_len.trans (phead_open h hi).2.1

/-- The position of `chead` is the number of claimed items. -/
theorem chead_place (h : Inv cfg s g) (hst : g.stage = .ready) (hi : s.chead.index < cfg.bl) :
    place cfg s s.chead = s.log.claimedLen ∧
      s.log.claimedLen = g.ck * cfg.bl + s.chead.index := by
  obtain ⟨a, hb, _, hlive⟩ := chead_live h hst hi
  have hlen := h.log.claim_len.trans (chead_index_le h hst).2
  exact ⟨(place_eq h hb hlive).trans hlen.symm, hlen⟩

/-- What an iterator has yielded is the front of what was sent. -/
theorem took_front (h : Inv cfg s g) {b : ℕ} {vs : List (Option T)} (hv : s.log.Took t b vs) :
    vs = (s.log.sent.drop b).take vs.length := by
  apply List.ext_getElem?
  intro j
  rw [List.getElem?_take]
  split
  · rename_i hj
    have hget : vs[j]? = some vs[j] := List.getElem?_eq_getElem hj
    obtain ⟨hpub, _⟩ := h.log.deliv _ (hv j _ hget)
    rw [hget, List.getElem?_drop]
    exact (h.log.toSends.sent_of_published h.ledger hpub).symm
  · exact List.getElem?_eq_none (by omega)

/-! ## Steps of `push_batch` and `is_empty` -/

variable {o : Origin T}

theorem Settled.of_eq (h : Settled o s) (htr : s'.trace = s.trace) (hlog : s'.log = s.log) :
    Settled o s' := by
  unfold Settled Leaves
  rwa [htr, hlog]

theorem pushLoop_solo {p : Push T} {phead : Head} (h : Settled o s) (hp : s.phead = phead) :
    SoloAt cfg o s (pushLoop cfg p phead) := by
  unfold pushLoop
  split
  · exact h
  · split <;> exact ⟨h, hp⟩

theorem grown_solo {p : Push T} {phead : Head} {need : ℕ} (h : Settled o s)
    (hp : s.phead = phead) : SoloAt cfg o s (grown cfg p phead need) := by
  unfold grown
  split <;> exact ⟨h, hp⟩

theorem fillOn_solo {f : Fill T} (h : Sending o s f.p.items) :
    SoloAt cfg o s (fillOn cfg f) := by
  unfold fillOn
  split
  · split <;> exact h
  · exact h

theorem walkOn_solo {w : PushWalk T} {next : Option Addr} (h : Sending o s w.p.items) :
    SoloAt cfg o s (walkOn cfg w next) := by
  unfold walkOn
  split <;> exact h

theorem give_phead (s : Shared T) (l l' : List Addr) : (s.give l l').1.phead = s.phead := by
  unfold Shared.give
  split <;> rfl

theorem newChain_phead (s : Shared T) (as : List Addr) : (s.newChain as).phead = s.phead := by
  unfold Shared.newChain
  split <;> rfl

/-- A reservation appends its items to the contents. -/
theorem reserved_solo (h : Inv cfg s g) (hset : Settled o s) (p : Push T) (phead : Head) :
    SoloAt cfg o (reserved cfg t s p phead).1 (reserved cfg t s p phead).2 := by
  obtain ⟨q, hq, hcont⟩ := hset
  have hsend : Sending o (reserved cfg t s p phead).1 p.items := by
    refine ⟨q, hq, ?_⟩
    show (s.log.reserve t _ p.items).sent.drop s.log.claimedLen = _
    rw [Log.reserve_sent, List.drop_append_of_le_length (claimedLen_le h), hcont]
  show SoloAt cfg o _ (if _ then _ else _)
  split
  · exact hsend
  · exact fillOn_solo hsend

/-- `is_empty` answers for the list. -/
theorem answer_solo (h : Inv cfg s g) (hset : Settled o s) {b : Bool}
    (hb : b = true ↔ Level s) :
    SoloAt cfg o (ret s t .isEmpty (.answer b)).1 (ret s t .isEmpty (.answer b)).2 := by
  obtain ⟨q, hq, hcont⟩ := hset
  refine ⟨q, hq.of_spec ?_ t, hcont⟩
  have hnil : Level s ↔ q = [] := by
    rw [level_iff_contents h]
    unfold Shared.contents
    rw [hcont, List.map_eq_nil_iff]
  have : b = q.isEmpty := by
    rw [Bool.eq_iff_iff, hb, hnil, List.isEmpty_iff]
  rw [this]
  rfl

/-- `push_batch` and `is_empty`. -/
theorem push_solo (h : Inv cfg s g) (hl : Local cfg t s g pc) (ha : Alone t g)
    (hsolo : SoloAt cfg o s pc) (hpc : pc.popping = false) :
    Post (fun r => SoloAt cfg o r.1 r.2) (step cfg t .run s pc) := by
  cases pc with
  | pLoad p =>
    simp only [step, stepWith]
    split
    · rename_i hz
      exact ⟨hsolo, hz⟩
    · exact pushLoop_solo hsolo rfl
  | pInitSwap p =>
    simp only [step, stepWith]
    split <;> exact hsolo
  | pInitCas p root =>
    simp only [step, stepWith, if_pos hsolo.2]
    exact ⟨hsolo.1, rfl⟩
  | pInitStore p root => exact pushLoop_solo (s := { s with chead := _ }) hsolo.1 hsolo.2
  | pReload p => exact pushLoop_solo hsolo rfl
  | pSwap p phead need =>
    simp only [step, stepWith]
    split
    · exact grown_solo hsolo.1 hsolo.2
    · rename_i a _
      obtain ⟨htr, hlog⟩ := give_history { s with pool := none } p.blocks [a]
      exact grown_solo (hsolo.1.of_eq htr hlog) ((give_phead _ _ _).trans hsolo.2)
  | pCas p phead =>
    simp only [step, stepWith, if_pos hsolo.2]
    exact reserved_solo h hsolo.1 p phead
  | pNext w =>
    refine deref_found (pNext_ok h hl) fun a _ _ => ?_
    split
    · exact hsolo
    · exact walkOn_solo hsolo
  | pLink w =>
    refine deref_found (pLink_ok h hl) fun a _ _ => ?_
    exact walkOn_solo (w := { w with root := [] }) hsolo
  | pStore w next => exact fillOn_solo (f := ⟨{ w.p with blocks := w.root }, 0, _, _⟩) hsolo
  | pWait f =>
    refine deref_found (pWait_found h hl) fun a _ _ => ?_
    split <;> exact hsolo
  | pWrite f next =>
    refine deref_found (pWrite_ok h hl) fun a _ _ => ?_
    apply fillOn_solo
    rwa [Fill.advance_p]
  | pDrop p =>
    obtain ⟨items, hret, hitems, _⟩ := hl.here.1.user
    simp only [step, stepWith]
    split
    · obtain ⟨q, hq, hcont⟩ := hsolo
      rw [hret]
      refine ⟨q ++ items, hq.of_spec rfl t, ?_⟩
      rwa [List.map_append, ← hitems]
    · exact hsolo
  | eLoad =>
    simp only [step, stepWith]
    split
    · rename_i hz
      exact answer_solo h hsolo ⟨fun _ => level_fresh h hz, fun _ => rfl⟩
    · exact ⟨hsolo, rfl⟩
  | eSpin phead =>
    obtain ⟨hset, rfl⟩ := hsolo
    have hst := ha.ready hl rfl hl.here
    have hnz : s.chead ≠ Head.zero := fun hz => (chead_zero_iff h).mp hz hst
    simp only [step, stepWith, if_neg hnz]
    refine answer_solo h hset ?_
    rw [← heads_eq_iff h hst (ha.phead_lt h hl rfl) (ha.chead_lt h hl rfl hst)]
    simp
  | fault => exact hsolo.elim
  | idle | pInitAlloc | pAlloc => trivial
  | _ => simp [Pc.popping] at hpc

/-! ## Steps of `pop_batch` -/

theorem popLoop_solo (h : Wants o s s.log.claimedLen q) :
    SoloAt cfg o (see s t) (popLoop cfg q s.chead) := by
  unfold popLoop popLoopWith
  split
  · exact h
  · split <;> exact h

/-- `pop_batch` returns the front of the list. -/
theorem popped_solo (h : Inv cfg s g) (hit : IterOk t s it) (hlen : it.len = 0)
    (hf : Fetching o s it) (htr : s'.trace = s.trace) (hlog : s'.log = s.log) :
    Settled o (ret s' t (.popBatch it.size it.keep)
      (.popped it.reserved (it.out.take it.keep))).1 := by
  obtain ⟨⟨q, hq, hcont⟩, hclaimed, hmax⟩ := hf
  have hcount := hit.count
  have hsize := hit.le
  have hle := claimedLen_le h
  have hql : q.length = s.log.sent.length - it.base := by
    rw [← List.length_map (f := some), ← hcont, List.length_drop]
  have hout : it.out = q.take it.size := by
    have hfront := took_front h hit.took
    rw [hcont, List.length_map, ← List.map_take] at hfront
    have htake : it.out = q.take it.out.length :=
      List.map_injective_iff.mpr (Option.some_injective T) hfront
    rw [htake]
    rcases hmax with hm | hm
    · rw [show it.out.length = it.size by omega]
    · rw [List.take_of_length_le (by omega), List.take_of_length_le (by omega)]
  refine ⟨q.drop it.size, ?_, ?_⟩
  · show Behaves o (s'.trace ++ _) _
    rw [htr, hout, show it.reserved = min it.size q.length by omega]
    exact hq.of_spec rfl t
  · show s'.log.sent.drop s'.log.claimedLen = _
    rw [hlog, hclaimed, ← List.drop_drop, hcont, ← List.map_drop]
    rcases hmax with hm | hm
    · rw [hm]
    · rw [List.drop_eq_nil_of_le (by omega), List.drop_eq_nil_of_le (by omega)]

theorem Fetching.of_eq (h : Fetching o s it) (htr : s'.trace = s.trace)
    (hlog : s'.log = s.log) : Fetching o s' it := by
  unfold Fetching Leaves
  rwa [htr, hlog]

/-- Between two segments the iterator goes on or returns. -/
theorem iterOn_solo (h : Inv cfg s g) (hit : IterOk t s it)
    (hf : Fetching o s it) (htr : s'.trace = s.trace) (hlog : s'.log = s.log) :
    SoloAt cfg o (iterOn s' t it).1 (iterOn s' t it).2 := by
  unfold iterOn
  split
  · rename_i hlen
    exact popped_solo h hit hlen hf htr hlog
  · exact hf.of_eq htr hlog

/-- A claim of at least one slot starts to iterate. -/
theorem iterStart_solo {chead : Head} {len : ℕ} (hlen : 0 < len)
    (hf : Fetching o s (iterStart cfg s' q chead len)) :
    SoloAt cfg o (iterOn s t (iterStart cfg s' q chead len)).1
      (iterOn s t (iterStart cfg s' q chead len)).2 := by
  unfold iterOn
  rwa [if_neg (show ¬ (iterStart cfg s' q chead len).len = 0 from Nat.pos_iff_ne_zero.mp hlen)]

/-- A won claim takes all it can. -/
theorem claimedOn_solo {chead new : Head} (hq : PopOk q)
    (hidx : new.index = min cfg.bl (chead.index + q.len)) (hi : chead.index < cfg.bl)
    (hw : Wants o s (place cfg s chead) q)
    (hlen : s.log.claimedLen = place cfg s chead + (new.index - chead.index)) :
    SoloAt cfg o (claimedOn cfg s t q chead new).1 (claimedOn cfg s t q chead new).2 := by
  unfold claimedOn
  split
  · rename_i hfull
    rw [hfull] at hlen
    exact ⟨hw, hlen⟩
  · have hall : s.log.claimedLen = place cfg s chead + q.len := by omega
    refine iterStart_solo hq.1 ⟨hw.1, hall, ?_⟩
    rw [hall]
    exact hw.2

/-- What `pop_batch` finds in the block of `chead` is all there is. -/
theorem cPhead_wants (h : Inv cfg s g) (hst : g.stage = .ready)
    (hi : s.chead.index < cfg.bl) (hp : s.phead.index < cfg.bl)
    (hw : Wants o s s.log.claimedLen q) (hb : s.phead.block = s.chead.block) :
    Wants o s s.log.claimedLen { q with len := min (s.phead.index - s.chead.index) q.len } := by
  obtain ⟨a, ha, _, hlive⟩ := chead_live h hst hi
  obtain ⟨b, hb', _, hlive'⟩ := phead_live h (by rw [hst]; simp) hp
  obtain rfl : b = a := Option.some.inj (hb'.symm.trans (hb.trans ha))
  have hk : g.ck = g.pk := by
    rw [hlive] at hlive'
    simpa using hlive'
  have hlen := (chead_place h hst hi).2
  have hsent := sent_length h hp
  have hle := claimedLen_le h
  have hmax := hw.2
  refine ⟨hw.1, ?_⟩
  show min (s.phead.index - s.chead.index) q.len = q.size ∨
    s.log.claimedLen + min (s.phead.index - s.chead.index) q.len = s.log.sent.length
  rw [hk] at hlen
  omega

/-- The end of the boundary walk takes all it can. -/
theorem settled_solo {hd : Head} {len : ℕ} (hin : Inside cfg o s w.q w.chead)
    (hfirst : cfg.bl - w.chead.index ≤ len) (hi : w.chead.index < cfg.bl)
    (hmax : len = w.q.size ∨ place cfg s w.chead + len = s.log.sent.length) :
    SoloAt cfg o (settled cfg t s w hd len).1 (settled cfg t s w hd len).2 := by
  obtain ⟨⟨hleaves, _⟩, hlen⟩ := hin
  refine iterStart_solo (by omega) ⟨hleaves, ?_, ?_⟩
  · rw [Log.claim_claimedLen, hlen]
    show _ = place cfg s w.chead + len
    omega
  · rw [Log.claim_claimedLen, hlen]
    show len = w.q.size ∨ _ = s.log.sent.length
    omega

/-- Inside the boundary the position of the walk is known. -/
theorem scanning_place (h : Inv cfg s g) {n m : ℕ} (hs : Scanning cfg t s g w n m) :
    place cfg s w.chead + w.q.len = n * cfg.bl + (w.index + w.remaining) ∧
      cfg.bl - w.chead.index ≤ w.q.len := by
  have hi := hs.locked.here.2.2
  have hfull := hs.locked.full
  have hplace := hs.locked.here.place h (by omega) hs.locked.holds
  have hrest := hs.rest
  omega

theorem popWalkOn_solo {next : Option Addr} (hin : Inside cfg o s w.q w.chead)
    (hp : w.phead = s.phead) : SoloAt cfg o s (popWalkOn cfg w next) := by
  unfold popWalkOn
  split <;> exact ⟨hin, hp⟩

theorem iterRead_solo {a : Addr} (hf : Fetching o s it) :
    SoloAt cfg o (iterRead cfg s it a).1 (iterRead cfg s it a).2 := by
  dsimp only [iterRead]
  split
  · exact hf
  · split <;> exact hf

/-- `pop_batch` up to its claim. -/
theorem claim_solo (h : Inv cfg s g) (hl : Local cfg t s g pc) (ha : Alone t g)
    (hcur : Current t s pc) (hsolo : SoloAt cfg o s pc) (hpc : pc.popping = true)
    (hR : pc.reading = false) : Post (fun r => SoloAt cfg o r.1 r.2) (step cfg t .run s pc) := by
  cases pc with
  | cLoad0 size keep =>
    simp only [step, stepWith]
    split
    · rename_i hz
      -- no value was ever reserved: the producer sets `chead` before it reserves
      have hfresh : s.phead = Head.zero := by
        by_contra hp
        exact (chead_zero_iff h).mp hz (ha.ready hl rfl fun hc => hp ((phead_zero_iff h).mpr hc))
      obtain ⟨q, hq, hcont⟩ := hsolo
      have hnil : q = [] := by
        have := (level_iff_contents h).mp (level_fresh h hfresh)
        unfold Shared.contents at this
        rwa [hcont, List.map_eq_nil_iff] at this
      subst hnil
      refine ⟨[], hq.of_spec ?_ t, hcont⟩
      simp [Op.spec]
    · exact ⟨hsolo, Or.inl rfl⟩
  | cReload q => exact popLoop_solo hsolo
  | cPhead q chead =>
    obtain ⟨rfl, hseen⟩ := hcur
    obtain ⟨hq, hsnap, _⟩ := hl.here
    simp only [step, stepWith]
    split
    · rename_i hb
      split
      · rename_i hz
        have hlevel := level_of_snapshot h hsnap hb (by have := hq.1; omega) hseen
        obtain ⟨⟨l, hbeh, hcont⟩, _⟩ := hsolo
        have hnil : l = [] := by
          have := (level_iff_contents h).mp hlevel
          unfold Shared.contents at this
          rwa [hcont, List.map_eq_nil_iff] at this
        subst hnil
        refine ⟨[], hbeh.of_spec ?_ t, hcont⟩
        simp [Op.spec]
      · exact cPhead_wants h hsnap.ready hsnap.here.2.2 (ha.phead_lt h hl rfl) hsolo hb
    · exact hsolo
  | cCas q chead new =>
    obtain ⟨rfl, _⟩ := hcur
    obtain ⟨hq, hsnap, hprop⟩ := hl.here
    have hi := hsnap.here.2.2
    have hplace := (chead_place h hsnap.ready hi).1
    have hw : Wants o s (place cfg s s.chead) q := hplace ▸ hsolo
    simp only [step, stepWith, if_true]
    split
    · refine claimedOn_solo (s := { s with chead := _, log := _ }) hq hprop.index hi hw ?_
      rw [Log.claim_claimedLen, ← hplace]
      exact rfl
    · refine ⟨hw, ?_⟩
      rw [Log.claim_claimedLen, ← hplace]
      exact rfl
  | cRevert => exact hsolo.elim
  | _ => exact absurd (And.intro hpc hR) (by simp [Pc.popping, Pc.reading])

/-- `pop_batch` from its claim on, and the iterator. -/
theorem read_solo (h : Inv cfg s g) (hl : Local cfg t s g pc) (ha : Alone t g)
    (hsolo : SoloAt cfg o s pc) (hR : pc.reading = true) :
    Post (fun r => SoloAt cfg o r.1 r.2) (step cfg t .run s pc) := by
  cases pc with
  | cPost q chead new =>
    obtain ⟨hq, hidx, k, hat, _⟩ := hl.here
    obtain ⟨hnot, _⟩ := cPost_ok h hl
    simp only [step, stepWith, if_neg hnot]
    exact claimedOn_solo hq hidx hat.2.2 hsolo.1 hsolo.2
  | cWalk q chead => exact ⟨hsolo, rfl⟩
  | cNext w =>
    refine deref_found (cNext_ok h hl) fun a _ _ => ?_
    have hp : w.phead.index < cfg.bl := hsolo.2 ▸ ha.phead_lt h hl rfl
    split
    · rwa [if_neg (by omega)]
    · exact popWalkOn_solo hsolo.1 hsolo.2
  | cStoreP w =>
    obtain ⟨hin, hp⟩ := hsolo
    obtain ⟨n, hsc, hidx⟩ := hl.here
    obtain ⟨hplace, hfirst⟩ := scanning_place h hsc
    obtain ⟨_, hlt⟩ := cStoreP_len hsc hidx
    have hi := hsc.locked.here.2.2
    have hzero := hsc.later hlt
    have hpast := hsc.past
    have hmax := hin.1.2
    have hplace' := hsc.locked.here.place h (by omega) hsc.locked.holds
    have hmul : (g.ck + 1) * cfg.bl ≤ n * cfg.bl := Nat.mul_le_mul_right _ hlt
    rw [succ_mul] at hmul
    -- the walk ends at the producer's position, which is still the end of the queue
    have hsent : s.log.sent.length = n * cfg.bl + w.phead.index := by
      have hown := hl.holdsC.mpr rfl
      obtain ⟨b, hb, _, hlive⟩ := scanning_block h hown hsc
      have hphi := ha.phead_lt h hl rfl
      obtain ⟨a, ha', _, hlive'⟩ := phead_live h (by rw [hsc.locked.ready]; simp) hphi
      have hbb : w.phead.block = w.block := (scanning_block_iff h hown hsc).mpr rfl
      rw [hp] at hbb
      obtain rfl : a = b := Option.some.inj (ha'.symm.trans (hbb.trans hb))
      have hk : n = g.pk := by
        rw [hlive] at hlive'
        simpa using hlive'
      rw [hk, hp]
      exact sent_length h hphi
    refine settled_solo hin (by omega) hi ?_
    omega
  | cStoreN w =>
    obtain ⟨n, m, hsc, _⟩ := hl.here
    obtain ⟨_, hfirst⟩ := scanning_place h hsc
    exact settled_solo hsolo.1 hfirst hsc.locked.here.2.2 hsolo.1.1.2
  | iRead it =>
    refine deref_found (iRead_found h hl) fun a hb _ => ?_
    dsimp only
    split
    · exact hsolo
    · exact iterRead_solo (s := { s with log := _ }) hsolo
    · rename_i hst hv
      exact absurd hv (hl.has_value h hb hst)
    · exact iterRead_solo (s := { s with heap := _, log := _ }) hsolo
  | iNext it =>
    refine deref_found (iNext_ok h hl) fun a _ _ => ?_
    exact hsolo
  | iConsume it a =>
    obtain ⟨k, e, hc, _⟩ := hl.here
    simp only [step, stepWith]
    split
    · split <;> exact hsolo
    · have hit : IterOk t s { it with pending := 0 } :=
        ⟨hc.iter.took, hc.iter.count, hc.iter.pos, hc.iter.le⟩
      exact iterOn_solo h hit hsolo rfl rfl
  | iReset it a => exact hsolo
  | iPool it a =>
    simp only [step, stepWith]
    split
    · exact iterOn_solo h hl.here.2.2.2.2.1 hsolo rfl rfl
    · exact hsolo
  | iFree it a => exact iterOn_solo h hl.here.2.2.2.2.1 hsolo rfl rfl
  | cSpin | cNext2 => exact hsolo.elim
  | _ => simp [Pc.reading] at hR

/-! ## Every step, every run -/

theorem call_solo (hset : Settled o s) (op : Op T) :
    Post (fun r => SoloAt cfg o r.1 r.2) (step cfg t (.call op) s .idle) := by
  cases op with
  | pushBatch items =>
    simp only [step, stepWith]
    split
    · rename_i hnil
      obtain rfl : items = [] := by simpa using hnil
      obtain ⟨q, hq, hcont⟩ := hset
      exact ⟨q, hq.of_spec (by simp [Op.spec]) t, hcont⟩
    · exact hset
  | popBatch size keep =>
    simp only [step, stepWith]
    split
    · rename_i hz
      subst hz
      obtain ⟨q, hq, hcont⟩ := hset
      exact ⟨q, hq.of_spec (by simp [Op.spec]) t, hcont⟩
    · exact hset
  | isEmpty => exact hset

/-- **One step of a lone thread.** -/
theorem solo_step (h : Inv cfg s g) (hl : Local cfg t s g pc) (ha : Alone t g)
    (hcur : Current t s pc) (hsolo : SoloAt cfg o s pc) {act : Act T} {r : Shared T × Pc T}
    (hs : step cfg t act s pc = some r) : SoloAt cfg o r.1 r.2 := by
  apply Post.of_pair hs
  apply step_cases
  case call =>
    rintro op - rfl
    exact call_solo hsolo op
  case run =>
    rintro -
    cases hpc : pc.popping with
    | false => exact push_solo h hl ha hsolo hpc
    | true =>
      cases hR : pc.reading with
      | false => exact claim_solo h hl ha hcur hsolo hpc hR
      | true => exact read_solo h hl ha hsolo hR
  case pCas =>
    rintro p phead - rfl
    exact pushLoop_solo hsolo.1 rfl
  case cCas =>
    rintro q chead new - rfl
    exact popLoop_solo hsolo
  case pInitAlloc =>
    rintro p a - rfl -
    exact hsolo
  case pAlloc =>
    rintro as p phead need - rfl - - -
    obtain ⟨h1, h2⟩ := give_history (s.newChain as) p.blocks as
    obtain ⟨h3, h4⟩ := newChain_history s as
    exact ⟨hsolo.1.of_eq (h1.trans h3) (h2.trans h4),
      (give_phead _ _ _).trans ((newChain_phead s as).trans hsolo.2)⟩

theorem alone_of_idle (hL : ∀ u, Local cfg u c.sh g (c.pc u))
    (hidle : ∀ u, u ≠ t → c.pc u = .idle) : Alone t g := by
  have hlocal : ∀ u, u ≠ t → Local cfg u c.sh g .idle := fun u hu => hidle u hu ▸ hL u
  refine ⟨fun u hu hc => ?_, fun u hu hc => ?_, fun u hu hc => ?_, fun u hu => ?_⟩
  · exact absurd ((hlocal u hu).holdsI.mp hc) (by simp [Pc.holdsI])
  · exact absurd ((hlocal u hu).holdsP.mp hc) (by simp [Pc.holdsP])
  · exact absurd ((hlocal u hu).holdsC.mp hc) (by simp [Pc.holdsC])
  · exact (hlocal u hu).pending rfl

/-- A configuration at rest: a run without stale claims led to it, every thread is
idle, and the queue holds the values `q`. -/
structure Rests (cfg : Config) (c : Conf T) (q : List T) : Prop where
  calm : (calm T cfg).Reachable c
  idle : ∀ u, c.pc u = .idle
  holds : c.sh.contents = q.map some

/-- The runs from `c₀` on in which only `t` moves. -/
def Solo (cfg : Config) (t : Tid) (c₀ c : Conf T) : Prop :=
  Relation.ReflTransGen ((system T cfg).Moves t) c₀ c

/-- What holds in every configuration of such a run. -/
structure Lone (cfg : Config) (t : Tid) (o : Origin T) (c : Conf T) : Prop where
  calm : (calm T cfg).Reachable c
  others : ∀ u, u ≠ t → c.pc u = .idle
  current : Current t c.sh (c.pc t)
  solo : SoloAt cfg o c.sh (c.pc t)

theorem Rests.lone {q : List T} (h : Rests cfg c q) : Lone cfg t ⟨c.sh.trace, q⟩ c where
  calm := h.calm
  others := fun u _ => h.idle u
  current := by
    rw [h.idle t]
    trivial
  solo := by
    rw [h.idle t]
    exact ⟨q, .start, h.holds⟩

/-- The invariant, the assertion of `t`, and its solitude. -/
theorem Lone.good (h : Lone cfg t o c) :
    ∃ g, Inv cfg c.sh g ∧ Local cfg t c.sh g (c.pc t) ∧ Alone t g := by
  obtain ⟨g, hI, hL⟩ := run_ok h.calm
  exact ⟨g, hI, hL t, alone_of_idle hL h.others⟩

/-- One step of the lone thread, in a configuration. -/
theorem Lone.moves {c c' : Conf T} (h : Lone cfg t o c) (hm : (system T cfg).Moves t c c') :
    Lone cfg t o c' := by
  obtain ⟨g, hI, hl, ha⟩ := h.good
  obtain ⟨s', p', ⟨act, hs⟩, rfl⟩ := hm
  have haba := h.current.abaFree
  obtain ⟨g', hok, hl'⟩ := step_ok hI hl haba hs
  have hpc : update c.pc t p' t = p' := update_self _ _ _
  refine ⟨h.calm.step (t := t) ⟨s', p', ⟨⟨act, hs⟩, haba⟩, rfl⟩, fun u hu => ?_, ?_, ?_⟩
  · show update c.pc t p' u = .idle
    rw [update_of_ne hu]
    exact h.others u hu
  · show Current t s' (update c.pc t p' t)
    rw [hpc]
    exact current_step h.current hs
  · show SoloAt cfg o s' (update c.pc t p' t)
    rw [hpc]
    exact solo_step hI hl ha h.current h.solo hs

/-- **Every run on one thread keeps the lone thread's assertions.** -/
theorem solo_ok {c₀ c : Conf T} {q : List T} (h₀ : Rests cfg c₀ q) (h : Solo cfg t c₀ c) :
    Lone cfg t ⟨c₀.sh.trace, q⟩ c := by
  induction h with
  | refl => exact h₀.lone
  | tail _ hm ih => exact ih.moves hm

end Mpmc
