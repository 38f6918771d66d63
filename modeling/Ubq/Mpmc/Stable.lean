/-
# Assertions survive the other threads

Each form of assertion of `Mpmc.Inv` is stable under `Rely`; `local_stable` puts
them together, one case per program counter.
-/
import Ubq.Mpmc.Inv

namespace Mpmc

variable {T : Type*} {cfg : Config} {u : Tid} {s s' : Shared T} {g g' : Ghost T}
variable {it : Iter T} {k : ℕ}

section

variable (hR : Rely u s g s' g')

include hR

theorem Owned.stable {l : List Addr} (h : Owned u s g l) : Owned u s' g' l := by
  refine ⟨h.1, fun a ha => ?_⟩
  obtain ⟨ho, hheap⟩ := hR.held a (h.2 a ha).1
  rw [hheap]
  exact ⟨ho, (h.2 a ha).2⟩

theorem Linked.stable {l : List Addr} (ho : Owned u s g l) (h : Linked s l) : Linked s' l := by
  refine path_congr (fun a ha => ?_) h
  show (s'.heap a).next = (s.heap a).next
  rw [(hR.held a (ho.2 a ha).1).2]

theorem linked_get (hk : k < s.linked.length) : s'.linked[k]? = s.linked[k]? := by
  obtain ⟨l, hl⟩ := hR.linked
  rw [← hl]
  exact List.getElem?_append_left hk

theorem linked_length_le : s.linked.length ≤ s'.linked.length :=
  hR.linked.length_le

theorem linked_mul_le : s.linked.length * cfg.bl ≤ s'.linked.length * cfg.bl :=
  Nat.mul_le_mul_right _ (linked_length_le hR)

end

/-- The block of a slot of the chain. -/
theorem At.block {k i : ℕ} {block : Option Addr} (h : At cfg s k block i) :
    ∃ a, block = some a ∧ s.linked[k]? = some a := by
  have hk := h.2.1
  have hget : s.linked[k]? = some s.linked[k] := List.getElem?_eq_getElem hk
  exact ⟨s.linked[k], h.1.trans hget, hget⟩

section

variable (hR : Rely u s g s' g')

include hR

theorem At.stable {block : Option Addr} {i : ℕ}
    (h : At cfg s k block i) : At cfg s' k block i := by
  obtain ⟨hb, hk, hi⟩ := h
  have hlen := linked_length_le hR
  refine ⟨?_, by omega, hi⟩
  rwa [linked_get hR hk]

theorem PushOk.stable {p : Push T} (h : PushOk u s g p) : PushOk u s' g' p :=
  ⟨h.user, h.owned.stable hR, h.linked.stable hR h.owned⟩

theorem Job.stable {items : List (Option T)} {a done : ℕ}
    (h : Job u s g items a done) : Job u s' g' items a done :=
  ⟨hR.log.reservations _ h.resv, hR.ledger.sent h.sent, hR.ledger.pending _ _ h.pending⟩

theorem Crossing.stable {w : PushWalk T} {n : ℕ}
    (hown : g.pown = some u) (h : Crossing cfg u s g w n) : Crossing cfg u s' g' w n := by
  obtain ⟨hl, hpk, hpp⟩ := hR.pown hown
  exact {
    push := h.push.stable hR
    none_left := h.none_left
    owned := h.owned.stable hR
    linked := h.linked.stable hR h.owned
    start := hpk ▸ h.start.stable hR
    job := hpk ▸ h.job.stable hR
    owes := hpk ▸ hR.ledger.owes h.owes
    ppos := by rw [hpk, hpp]; exact h.ppos
    enough := by rw [hl, hpp]; exact h.enough
    here := h.here.stable hR
    pk_le := hpk ▸ h.pk_le
    rest := hpp ▸ h.rest
    first := hpk ▸ h.first }

theorem Filling.stable {f : Fill T} {a k : ℕ}
    (h : Filling cfg u s g f a k) : Filling cfg u s' g' f a k :=
  ⟨h.push.stable hR, h.job.stable hR, h.lt, h.here.stable hR, h.pos, hR.ledger.owes h.owes,
    Nat.lt_of_lt_of_le h.room (linked_mul_le hR)⟩

end

/-- The slot after the last one of a block lies in the next block. -/
theorem token_lt_of_mul_lt (bl : ℕ) {k m : ℕ} (h : k * bl < m * bl) : k < m := by
  by_contra hc
  have : m * bl ≤ k * bl := Nat.mul_le_mul_right _ (by omega)
  omega

theorem succ_mul (bl k : ℕ) : (k + 1) * bl = k * bl + bl := by
  rw [Nat.add_mul, Nat.one_mul]

/-- A filler at the end of its block finds the next one linked. -/
theorem Filling.succ_lt {f : Fill T} {a k : ℕ} (h : Filling cfg u s g f a k)
    (hend : f.index + 1 = cfg.bl) : k + 1 < s.linked.length := by
  have hpos := h.pos
  have hlt := h.lt
  have hroom := h.room
  apply token_lt_of_mul_lt cfg.bl
  rw [succ_mul]
  omega

theorem Snap.stable {chead : Head} (hR : Rely u s g s' g') (h : Snap cfg u s g chead) :
    Snap cfg u s' g' chead where
  ready := hR.ready h.ready
  here := hR.seen ▸ h.here.stable hR
  seen_le := hR.seen ▸ h.seen_le.trans hR.ck
  pos_le := hR.seen ▸ h.pos_le.trans hR.cpos

theorem Proposal.stable {q : Pop} {chead new : Head} (hR : Rely u s g s' g')
    (h : Proposal cfg u s g q chead new) (hs : Snap cfg u s g chead) :
    Proposal cfg u s' g' q chead new where
  block := h.block
  index := h.index
  hint := h.hint
  ahead := fun hf hlast => by
    rw [hR.seen] at hlast ⊢
    obtain ⟨h1, h2⟩ := h.ahead hf fun j hj hc => hlast j hj (by
      have hjl : j < s.linked.length := by
        obtain ⟨a, hsome, _⟩ := hs.here.block
        rw [hsome] at hc
        exact (List.getElem?_eq_some_iff.mp hc).1
      rw [linked_get hR hjl]
      exact hc)
    exact ⟨h1.trans hR.ledger.ppos, fun hn => Nat.lt_of_lt_of_le (h2 hn) hR.pk⟩

theorem Locked.stable {q : Pop} {chead : Head} (hR : Rely u s g s' g') (hown : g.cown = some u)
    (h : Locked cfg u s g q chead) : Locked cfg u s' g' q chead where
  pop := h.pop
  ready := hR.ready h.ready
  here := hR.cown hown ▸ h.here.stable hR
  holds := hR.cown hown ▸ hR.ledger.holds h.holds
  covers := hR.cown hown ▸ hR.covers _ _ h.covers
  full := h.full

theorem Scanning.stable {w : PopWalk} {n m : ℕ} (hI : Inv cfg s g) (hR : Rely u s g s' g')
    (hown : g.cown = some u) (h : Scanning cfg u s g w n m) : Scanning cfg u s' g' w n m := by
  have hck := hR.cown hown
  have hm : m < s.linked.length := by
    have hpk := hI.pk_lt (by rw [h.locked.ready]; simp)
    have := h.le_pk
    omega
  exact {
    locked := h.locked.stable hR hown
    here := h.here.stable hR
    ck_le := hck ▸ h.ck_le
    le := h.le
    le_pk := h.le_pk.trans hR.pk
    block := by rw [linked_get hR hm]; exact h.block
    index_le := h.index_le
    le_ppos := h.le_ppos.trans hR.ledger.ppos
    past := hck ▸ h.past
    rest := hck ▸ h.rest
    first := hck ▸ h.first
    later := hck ▸ h.later }

theorem IterOk.stable (hR : Rely u s g s' g') (h : IterOk u s it) : IterOk u s' it :=
  ⟨h.took.mono hR.log, h.count, h.pos, h.le⟩

theorem Reading.stable (hR : Rely u s g s' g')
    (h : Reading cfg u s g it k) : Reading cfg u s' g' it k :=
  ⟨h.iter.stable hR, h.left, h.here.stable hR, h.pos, h.pending_le, hR.ledger.tookAll h.taken,
    hR.ledger.holds h.holds, hR.covers _ _ h.covers⟩

theorem Counting.stable {k e : ℕ} (hR : Rely u s g s' g')
    (h : Counting cfg u s g it k e) : Counting cfg u s' g' it k e :=
  ⟨h.iter.stable hR, Nat.lt_of_lt_of_le h.lt (linked_length_le hR), h.pos, h.le, h.pending_pos,
    h.pending_le, hR.ledger.tookAll h.taken, hR.covers _ _ h.covers,
    fun hl => ⟨(h.more hl).1, hR.ledger.holds (h.more hl).2⟩⟩

theorem Iterating.stable (hR : Rely u s g s' g') (h : Iterating cfg u s g it) :
    Iterating cfg u s' g' it := by
  obtain ⟨hp, hb, hc, hk⟩ := h
  refine ⟨hp, hb.stable hR, hR.covers _ _ hc, fun hl => ?_⟩
  obtain ⟨k, hk⟩ := hk hl
  exact ⟨k, hk.stable hR⟩

/-- Everything claimed lies in linked blocks. -/
theorem claimed_lt_linked (hI : Inv cfg s g) {p : ℕ} (hp : g.L.cons p ≠ .free) :
    p < s.linked.length * cfg.bl := by
  have h1 := hI.ledger.claimed_lt hp
  by_cases hst : g.stage = .fresh
  · have h2 := hI.cpos_le
    have h3 := (hI.fresh hst).2.1
    omega
  · have h2 := hI.cpos_pk
    have h3 : (g.pk + 1) * cfg.bl ≤ s.linked.length * cfg.bl :=
      Nat.mul_le_mul_right _ (hI.pk_lt hst)
    rw [succ_mul] at h3
    omega

/-- An iterator with slots left past its block has the next block linked. -/
theorem Counting.succ_lt {k e : ℕ} (hI : Inv cfg s g)
    (h : Counting cfg u s g it k e) (hl : 0 < it.len) : k + 1 < s.linked.length := by
  have hcl := (h.more hl).2 0 hl
  have hlt := claimed_lt_linked hI (p := k * cfg.bl + cfg.bl + 0) (by rw [hcl]; simp)
  apply token_lt_of_mul_lt cfg.bl
  rwa [succ_mul]

/-- **Stability**: the assertion of `u` survives the steps of the other threads. -/
theorem local_stable {pc : Pc T} (hI : Inv cfg s g) (hR : Rely u s g s' g')
    (h : Local cfg u s g pc) : Local cfg u s' g' pc := by
  refine ⟨hR.opening.trans h.holdsI, hR.pown_iff.trans h.holdsP, hR.cown_iff.trans h.holdsC,
    fun hw => hR.ledger.pending _ _ (h.pending hw), fun hw => hR.covers _ _ (h.covers hw),
    fun a ha => h.keeps a (hR.keeps a ha), ?_⟩
  have hP := h.holdsP
  have hC := h.holdsC
  have hh := h.here
  cases pc with
  | idle => trivial
  | fault => exact hh
  | pLoad p => exact ⟨hh.1.stable hR, hh.2⟩
  | pInitSwap p => exact ⟨hh.1.stable hR, hh.2⟩
  | pInitAlloc p => exact ⟨hh.1.stable hR, hh.2⟩
  | pInitCas p root =>
    obtain ⟨h1, h2, h3, h4⟩ := hh
    exact ⟨h1.stable hR, h2, h3.stable hR, h4.stable hR h3⟩
  | pInitStore p root =>
    obtain ⟨h1, h2, h3⟩ := hh
    refine ⟨h1.stable hR, h2, ?_⟩
    rwa [linked_get hR (List.getElem?_eq_some_iff.mp h3).1]
  | pReload p => exact ⟨hh.1.stable hR, hR.started hh.2⟩
  | pSwap p phead need => exact ⟨hh.1.stable hR, hR.started hh.2.1, hh.2.2⟩
  | pAlloc p phead need => exact ⟨hh.1.stable hR, hR.started hh.2.1, hh.2.2⟩
  | pCas p phead => exact ⟨hh.1.stable hR, hR.started hh.2.1, hh.2.2⟩
  | pNext w =>
    obtain ⟨n, hc⟩ := hh
    exact ⟨n, hc.stable hR (hP.mpr rfl)⟩
  | pLink w =>
    obtain ⟨n, hc, hn⟩ := hh
    have hown : g.pown = some u := hP.mpr rfl
    refine ⟨n, hc.stable hR hown, ?_⟩
    rwa [(hR.pown hown).1]
  | pStore w next =>
    obtain ⟨n, hc, hn, hr⟩ := hh
    have hown : g.pown = some u := hP.mpr rfl
    refine ⟨n, hc.stable hR hown, ?_, hr⟩
    rwa [(hR.pown hown).1]
  | pWait f =>
    obtain ⟨⟨a, k, hf⟩, hend⟩ := hh
    exact ⟨⟨a, k, hf.stable hR⟩, hend⟩
  | pWrite f next =>
    obtain ⟨a, k, hf, hn⟩ := hh
    refine ⟨a, k, hf.stable hR, fun hend => ?_⟩
    rw [linked_get hR (hf.succ_lt hend)]
    exact hn hend
  | pDrop p =>
    obtain ⟨h1, a, h2, h3⟩ := hh
    exact ⟨h1.stable hR, a, hR.log.reservations _ h2, hR.ledger.sent h3⟩
  | cLoad0 size keep => exact hh
  | cReload q => exact ⟨hh.1, hR.ready hh.2⟩
  | cPhead q chead => exact ⟨hh.1, hh.2.1.stable hR, hh.2.2⟩
  | cCas q chead new => exact ⟨hh.1, hh.2.1.stable hR, hh.2.2.stable hR hh.2.1⟩
  | cPost q chead new =>
    obtain ⟨h1, h2, k, h3, h4, h5, hcov, h6⟩ := hh
    refine ⟨h1, h2, k, h3.stable hR, h4.trans hR.ledger.ppos, hR.ledger.holds h5,
      hR.covers _ _ hcov, fun hf => ?_⟩
    have hown : g.cown = some u := hC.mpr (by simp [Pc.holdsC, hf])
    exact ⟨(hR.cown hown).trans (h6 hf).1, hR.ready (h6 hf).2⟩
  | cRevert q chead new phead => exact hh
  | cWalk q chead => exact Locked.stable hR (hC.mpr rfl) hh
  | cNext w =>
    obtain ⟨n, m, hs⟩ := hh
    exact ⟨n, m, hs.stable hI hR (hC.mpr rfl)⟩
  | cSpin w =>
    obtain ⟨n, hs⟩ := hh
    exact ⟨n, hs.stable hI hR (hC.mpr rfl)⟩
  | cNext2 w =>
    obtain ⟨n, m, hs, hlt⟩ := hh
    exact ⟨n, m, hs.stable hI hR (hC.mpr rfl), hlt⟩
  | cStoreP w =>
    obtain ⟨n, hs, hlt⟩ := hh
    exact ⟨n, hs.stable hI hR (hC.mpr rfl), hlt⟩
  | cStoreN w =>
    obtain ⟨n, m, hs, hlt⟩ := hh
    exact ⟨n, m, hs.stable hI hR (hC.mpr rfl), hlt⟩
  | iRead it =>
    obtain ⟨k, hr⟩ := hh
    exact ⟨k, hr.stable hR⟩
  | iNext it =>
    obtain ⟨k, hc, hb⟩ := hh
    refine ⟨k, hc.stable hR, ?_⟩
    rwa [linked_get hR hc.lt]
  | iConsume it a =>
    obtain ⟨k, e, hc, ha, hm⟩ := hh
    refine ⟨k, e, hc.stable hR, ?_, fun hl => ?_⟩
    · rwa [linked_get hR hc.lt]
    · rw [linked_get hR (hc.succ_lt hI hl)]
      exact hm hl
  | iReset it a =>
    obtain ⟨h1, h2, h3⟩ := hh
    obtain ⟨ho, hheap⟩ := hR.held a h1
    exact ⟨ho, hheap.symm ▸ h2, h3.stable hR⟩
  | iPool it a =>
    obtain ⟨h1, h2, h3, h4⟩ := hh
    obtain ⟨ho, hheap⟩ := hR.held a h1
    exact ⟨ho, hheap.symm ▸ h2, hheap.symm ▸ h3, h4.stable hR⟩
  | iFree it a =>
    obtain ⟨h1, h2, h3, h4⟩ := hh
    obtain ⟨ho, hheap⟩ := hR.held a h1
    exact ⟨ho, hheap.symm ▸ h2, hheap.symm ▸ h3, h4.stable hR⟩
  | eLoad => trivial
  | eSpin phead => exact hR.started hh

end Mpmc
