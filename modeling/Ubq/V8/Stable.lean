/-
# Assertions survive the other threads

Every assertion of `Local` is built from a few forms (private blocks, head
snapshots, cells of the ledger, slots of the chain), and each form is stable
under `Rely`.  `local_stable` puts them together, one case per program counter.
-/
import Ubq.V8.Inv

namespace V8

variable {T : Type*} {cfg : Config} {u : Tid} {s s' : Shared T} {g g' : Ghost T}
variable {r : Read T} {index p : ℕ} {block next : Option Addr} {vs : List T} {w : Write T}

/-- A longer history agrees where the shorter one is defined. -/
theorem prefix_getElem? {l l' : List Addr} (h : l <+: l') {k : ℕ} (hk : k < l.length) :
    l'[k]? = l[k]? := by
  obtain ⟨m, rfl⟩ := h
  exact List.getElem?_append_left hk

/-- Private blocks stay private. -/
theorem Owned.stable {l : List Addr} (hR : Rely u s g s' g') (h : Owned u s g l) :
    Owned u s' g' l := by
  refine ⟨h.1, fun a ha => ?_⟩
  obtain ⟨ho, hheap⟩ := hR.held a (h.2 a ha).1
  rw [hheap]
  exact ⟨ho, (h.2 a ha).2⟩

theorem Keeps.stable {l : List Addr} (hR : Rely u s g s' g') (h : Keeps u g l) : Keeps u g' l :=
  fun a ha => h a (hR.keeps a ha)

/-- The links of private blocks stay. -/
theorem Linked.stable {l m : List Addr} (hR : Rely u s g s' g') (ho : Owned u s g m)
    (hsub : ∀ a ∈ l, a ∈ m) (h : Linked s l) : Linked s' l := by
  refine path_congr (fun a ha => ?_) h
  show (s'.heap a).next = (s.heap a).next
  rw [(hR.held a (ho.2 a (hsub a ha)).1).2]

/-- A snapshot of the producer head stays valid. -/
theorem PSnap.stable (hI : Inv cfg s g)
    (hR : Rely u s g s' g') (h : PSnap s g index block) : PSnap s' g' index block := by
  obtain ⟨hle, hne, hpair⟩ := h
  rcases hR.pidx with ⟨h1, h2, h3⟩ | hlt
  · refine ⟨h1 ▸ hle, hne, fun heq hown => ?_⟩
    rw [h2, prefix_getElem? hR.linked hI.pk_lt]
    exact hpair (h1 ▸ heq) (h3 ▸ hown)
  · exact ⟨by omega, hne, fun heq => by omega⟩

/-- A snapshot of the consumer head stays valid. -/
theorem CSnap.stable (hI : Inv cfg s g)
    (hR : Rely u s g s' g') (h : CSnap s g index block) : CSnap s' g' index block := by
  obtain ⟨hle, hne, hpair⟩ := h
  rcases hR.cidx with ⟨h1, h2, h3⟩ | hlt
  · refine ⟨h1 ▸ hle, hne, fun heq hown => ?_⟩
    have hck : g.ck < s.linked.length := Nat.lt_of_le_of_lt hI.ck_le hI.pk_lt
    rw [h2, prefix_getElem? hR.linked hck]
    exact hpair (h1 ▸ heq) (h3 ▸ hown)
  · exact ⟨by omega, hne, fun heq => by omega⟩

section

variable (hR : Rely u s g s' g')

include hR

/-- What was handed to a thread stays handed to it. -/
theorem Rely.took (h : s.log.Took u p vs) : s'.log.Took u p vs :=
  fun j x hj => hR.deliv _ (h j x hj)

/-- The reservation of a thread is its own. -/
theorem Job.stable {src : List T} {a moved : ℕ}
    (h : Job u s g src a moved) : Job u s' g' src a moved :=
  ⟨hR.resv.trans h.resv, hR.ledger.sent h.sent, hR.ledger.pending _ _ h.pending⟩

theorem linked_length_le : s.linked.length ≤ s'.linked.length :=
  hR.linked.length_le

theorem linked_mul_le : s.linked.length * cfg.cap ≤ s'.linked.length * cfg.cap :=
  Nat.mul_le_mul_right _ (linked_length_le hR)

/-- A slot of a linked block stays where it is. -/
theorem At.stable {k : ℕ} {v o : ℕ} (h : At cfg s k block v o) : At cfg s' k block v o := by
  obtain ⟨hb, hk, hv, ho⟩ := h
  have hlen := linked_length_le hR
  refine ⟨?_, by omega, hv, ho⟩
  rwa [prefix_getElem? hR.linked hk]

/-- The assertion between two segments of a write. -/
theorem Writing.stable (h : Writing cfg u s g w) : Writing cfg u s' g' w := by
  obtain ⟨hle, a, hjob, hseg⟩ := h
  refine ⟨hle, a, hjob.stable hR, fun hlt => ?_⟩
  obtain ⟨k, hat, hpos, howes, hroom⟩ := hseg hlt
  exact ⟨k, hat.stable hR, hpos, hR.ledger.owes howes, hroom.trans (linked_mul_le hR)⟩

end

/-- A segment that does not exhaust the input leaves room in the next block. -/
theorem succ_lt_of_room {k v o n m : ℕ} {L : ℕ} (hv : v + 1 = cfg.nv)
    (hn : min (cfg.ns - o) m = n) (hlt : n < m)
    (hroom : cfg.pos k v o + m ≤ L * cfg.cap) (ho : o < cfg.ns) : k + 1 < L := by
  have hnv : v * cfg.ns + cfg.ns = cfg.cap := by
    unfold Config.cap
    rw [← hv, Nat.add_mul]
    omega
  have hpos : k * cfg.cap + cfg.cap < L * cfg.cap := by
    unfold Config.pos at hroom
    omega
  by_contra hc
  have h1 : L * cfg.cap ≤ (k + 1) * cfg.cap := Nat.mul_le_mul_right _ (by omega)
  have h2 : (k + 1) * cfg.cap = k * cfg.cap + cfg.cap := by rw [Nat.add_mul]; omega
  omega

section

variable (hR : Rely u s g s' g')

include hR

/-- The assertion inside a segment of a write. -/
theorem Filling.stable {i : ℕ}
    (h : Filling cfg u s g w next i) : Filling cfg u s' g' w next i := by
  obtain ⟨hlt, hi, k, hat, ⟨a, hjob, hpos⟩, hcop, hres, hroom, hnext⟩ := h
  refine ⟨hlt, hi, k, hat.stable hR, ⟨a, hjob.stable hR, hpos⟩,
    fun j x hj hx => hR.ledger.copied _ x (hcop j x hj hx),
    fun j x hj hx => hR.ledger.reserved _ x (hres j x hj hx),
    hroom.trans (linked_mul_le hR), fun hv hm => ?_⟩
  rw [hnext hv hm]
  have hk : k + 1 < s.linked.length :=
    succ_lt_of_room (m := w.src.length - w.moved) hv rfl
      (by unfold Write.count at hm; omega) hroom hat.2.2.2
  rw [prefix_getElem? hR.linked hk]

/-- While `u` holds the producer sentinel, the producer head stands still. -/
theorem Rely.pk_eq (h : g.pown = some u) : g'.pk = g.pk := by
  rcases hR.pidx with ⟨_, h2, _⟩ | hlt
  · exact h2
  · have := (hR.pown h).1
    omega

/-- While `u` holds the consumer sentinel, the consumer head stands still. -/
theorem Rely.ck_eq (h : g.cown = some u) : g'.ck = g.ck := by
  rcases hR.cidx with ⟨_, h2, _⟩ | hlt
  · exact h2
  · have := (hR.cown h).1
    omega

/-- The assertion of `advance_producer` before its link. -/
theorem Linking.stable {token : ℕ} {blocks : List Addr}
    (hown : g.pown = some u) (h : Linking cfg u s g w token blocks) :
    Linking cfg u s' g' w token blocks := by
  obtain ⟨h1, h2, h3, h4, h5, hjob, h6, h7, h8, h9, h10⟩ := h
  obtain ⟨_, _, hl, hp⟩ := hR.pown hown
  have hpk := hR.pk_eq hown
  refine ⟨hpk ▸ h1, hpk ▸ h2.stable hR, h3, h4, h5, hpk ▸ hjob.stable hR, hpk ▸ hR.ledger.owes h6,
    ?_, ?_, h9.stable hR, h10.stable hR h9 (fun _ h => h)⟩
  · rw [hpk, hp]; exact h7
  · rw [hl, hp]; exact h8

/-- The assertion of the walk of `advance_producer`. -/
theorem Walking.stable {a : Advance T}
    (hown : g.pown = some u) (h : Walking cfg u s g a) : Walking cfg u s' g' a := by
  obtain ⟨h1, h2, h3, h4, h5, hjob, h6, h7, h8, h9, h10, h11⟩ := h
  obtain ⟨_, _, hl, hp⟩ := hR.pown hown
  have hpk := hR.pk_eq hown
  refine ⟨hpk ▸ h1, hpk ▸ h2.stable hR, h3, h4, h5, hpk ▸ hjob.stable hR, hpk ▸ hR.ledger.owes h6,
    ?_, ?_, ?_, h10, ?_⟩
  · rw [hpk, hp]; exact h7
  · rw [hl, hp]; exact h8
  · rw [hpk, hl]; exact h9
  · rw [hpk, hp]; exact h11

end

/-- What the caller of `acquire` knows. -/
theorem AcqOk.stable {ret : AcqRet T} {acc : List Addr} {n : ℕ} (hI : Inv cfg s g)
    (hR : Rely u s g s' g') (h : AcqOk cfg u s g ret acc n) : AcqOk cfg u s' g' ret acc n := by
  cases ret with
  | first src index block =>
    obtain ⟨h1, h2, h3, h4⟩ := h
    exact ⟨h1, h2.stable hI hR, h3.stable hR, h4.stable hR h3 (fun _ h => h)⟩
  | root src index blocks => exact h
  | more src index block blocks =>
    obtain ⟨h1, h2, h3, h4, h5, h6, h7⟩ := h
    exact ⟨h1, h2.stable hI hR, h3, h4, h5.stable hR, h6.stable hR h5 (by simp; tauto),
      h7.stable hR h5 (by simp; tauto)⟩

/-- What the caller of `take` knows. -/
theorem TakeOk.stable {ret : TakeRet T} (hI : Inv cfg s g) (hR : Rely u s g s' g')
    (h : TakeOk cfg u s g ret) : TakeOk cfg u s' g' ret := by
  cases ret with
  | acquire ret acc n => exact ⟨h.1, h.2.stable hI hR⟩
  | flush => trivial

/-- The detached chain is private. -/
theorem Detached.stable {ret : TakeRet T} {taken : List Addr} {rest : Option Addr}
    (hR : Rely u s g s' g') (h : Detached u s g ret taken rest) :
    Detached u s' g' ret taken rest := by
  obtain ⟨rem, h1, h2, h3, hk, h4, h5⟩ := h
  exact ⟨rem, h1, h2, h3.stable hR, hk.stable hR, h4.stable hR h3 (by simp; tauto), h5⟩

/-- The proposed index was possible and stays so. -/
theorem NewIndex.stable {cap index newIndex : ℕ} (hR : Rely u s g s' g')
    (h : NewIndex cfg g cap index newIndex) : NewIndex cfg g' cap index newIndex := by
  obtain ⟨off', f, hf, hw, hlt, hcap, hreq, hcase⟩ := h
  refine ⟨off', f, hf, hw, hlt, hcap, hreq, ?_⟩
  rcases hcase with h1 | ⟨h1, h2, h3⟩
  · exact Or.inl h1
  · have hpk := hR.pk
    exact Or.inr ⟨h1, h2.trans hR.ledger.ppos, fun hf1 => by have := h3 hf1; omega⟩

/-- The assertion between two segments of a read. -/
theorem Reading.stable (hR : Rely u s g s' g') (h : Reading cfg u s g r) :
    Reading cfg u s' g' r := by
  obtain ⟨h1, h2, h3, h4, b, htook, hcov, h5⟩ := h
  refine ⟨h1, h2, h3, h4, b, hR.took htook, hR.covers _ _ hcov, fun hlt => ?_⟩
  obtain ⟨hat, hpos, hholds⟩ := h5 hlt
  exact ⟨hat.stable hR, hpos, hR.ledger.holds hholds⟩

/-- The assertion inside a segment of a read. -/
theorem Draining.stable {i : ℕ} (hR : Rely u s g s' g')
    (h : Draining cfg u s g r i) : Draining cfg u s' g' r i := by
  obtain ⟨h1, h2, h3, h4, h5, ⟨b, htook, hpos⟩, hcov, h6, h7, h8⟩ := h
  refine ⟨h1, h2, h3, h4, h5.stable hR, ⟨b, hR.took htook, hpos⟩, hR.covers _ _ hcov,
    fun j hj => hR.ledger.taken _ (h6 j hj), fun j hj hl => hR.ledger.claimed _ (h7 j hj hl),
    fun j hj => ?_⟩
  obtain ⟨x, hx⟩ := h8 j hj
  exact ⟨x, hR.ledger.published _ x hx⟩

/-- Everything claimed lies in linked blocks. -/
theorem claimed_lt_linked (hI : Inv cfg s g) (hp : g.L.cons p ≠ .free) :
    p < s.linked.length * cfg.cap := by
  have h1 := hI.ledger.claimed_lt hp
  have h2 := hI.cpos_pk
  have h3 := token_mul_le cfg hI.pk_lt
  omega

/-- The block after the last vblock stays the next one. -/
theorem Next.stable (hI : Inv cfg s g)
    (hR : Rely u s g s' g') (hd : Draining cfg u s g r (r.count cfg)) (h : Next cfg s r next) :
    Next cfg s' r next := by
  intro hv hlt
  rw [h hv hlt]
  obtain ⟨_, hwl, _, _, hat, _, _, _, hcl, _⟩ := hd
  have hj : r.count cfg < r.len - r.written := by omega
  -- the first slot after the segment is claimed, so its block is linked
  have hlast := claimed_lt_linked hI (p := cfg.pos r.token r.vblock r.offset + r.count cfg)
    (by rw [hcl _ (le_refl _) hj]; simp)
  have hk : r.token + 1 < s.linked.length :=
    succ_lt_of_room (m := r.count cfg + 1) hv
      (by unfold Read.count at hj ⊢; omega) (Nat.lt_succ_self _) (by omega) hat.2.2.2
  rw [prefix_getElem? hR.linked hk]

/-- The assertion of `advance_consumer`. -/
theorem Locked.stable (hR : Rely u s g s' g') (hown : g.cown = some u)
    (h : Locked cfg u s g r) : Locked cfg u s' g' r := by
  obtain ⟨h1, h2, h3, h4, h5, h6, hcov⟩ := h
  exact ⟨(hR.ck_eq hown).trans h1, h2, h3, h4, h5.stable hR, hR.ledger.holds h6, hR.covers _ _ hcov⟩

/-- Its walk, before the index is found. -/
theorem Scanning.stable {newIndex pidx : ℕ} {blk : Option Addr}
    (hI : Inv cfg s g) (hR : Rely u s g s' g') (h : Scanning cfg s g r newIndex pidx blk) :
    Scanning cfg s' g' r newIndex pidx blk := by
  obtain ⟨n, o, pt, po, h1, h2, h3, h4, h5, h6, h7, h8, h9, h10, h11⟩ := h
  have hpk := hR.pk
  have hlt := hI.pk_lt
  refine ⟨n, o, pt, po, h1, h2, h3, h4, by omega, h6.trans hR.ledger.ppos, ?_, h8, h9, h10, h11⟩
  rwa [prefix_getElem? hR.linked (by omega)]

/-- Its walk, once the index is found. -/
theorem Settling.stable {newIndex : ℕ} {blk : Option Addr}
    (hI : Inv cfg s g) (hR : Rely u s g s' g') (h : Settling cfg s g r newIndex blk) :
    Settling cfg s' g' r newIndex blk := by
  obtain ⟨n, o, f, h1, h2, h3, h4, h5, h6, h7, h8, h9⟩ := h
  have hpk := hR.pk
  have hlt := hI.pk_lt
  refine ⟨n, o, f, h1, h2, h3, fun hf => by have := h4 hf; omega, by omega, ?_, h7,
    h8.trans hR.ledger.ppos, h9⟩
  rwa [prefix_getElem? hR.linked (by omega)]

/-- The block to be recycled is private. -/
theorem Recycling.stable {b : Addr} (hR : Rely u s g s' g')
    (h : Recycling cfg u s g r next b) : Recycling cfg u s' g' r next b :=
  ⟨(hR.held b h.1).1, h.2.stable hR⟩

/-- A count of published positions only grows. -/
theorem published_tally_le (hR : Rely u s g s' g') (a n : ℕ) :
    tally (fun p => (g.L.prod p).isPublished) a n
      ≤ tally (fun p => (g'.L.prod p).isPublished) a n := by
  apply tally_mono
  intro p _ _ hp
  obtain ⟨v, hv⟩ := Ledger.PCell.isPublished_iff.mp hp
  simp [hR.ledger.published p v hv]

theorem index_le_stable (hR : Rely u s g s' g') (h : index ≤ s.producerIndex) :
    index ≤ s'.producerIndex := by
  rcases hR.pidx with ⟨h1, _, _⟩ | hlt <;> omega

theorem cindex_le_stable (hR : Rely u s g s' g') (h : index ≤ s.consumerIndex) :
    index ≤ s'.consumerIndex := by
  rcases hR.cidx with ⟨h1, _, _⟩ | hlt <;> omega

/-- **Stability**: the assertion of `u` survives the steps of the other threads. -/
theorem local_stable {pc : Pc T} (hI : Inv cfg s g) (hR : Rely u s g s' g')
    (h : Local cfg u s g pc) : Local cfg u s' g' pc := by
  refine ⟨hR.pown_iff.trans h.holdsP, hR.cown_iff.trans h.holdsC, hR.fown_iff.trans h.holdsF,
    fun hw => hR.ledger.pending _ _ (h.pending hw), fun hw => hR.covers _ _ (h.covers hw),
    fun hw => (h.keeps hw).stable hR,
    fun k v hv => h.counts k v ((hR.vstat k v).mp hv), ?_⟩
  have hP := h.holdsP
  have hC := h.holdsC
  have hh := h.here
  cases pc with
  | idle => trivial
  | fault => exact hh
  | wIndex src => exact hh
  | wBlock src index => exact ⟨hh.1, index_le_stable hR hh.2⟩
  | wLoop src index block blocks =>
    obtain ⟨h1, h2, h3, h4⟩ := hh
    exact ⟨h1, h2.stable hI hR, h3.stable hR, h4.stable hR h3 (fun _ h => h)⟩
  | wReIndex src blocks =>
    obtain ⟨h1, h3, h4⟩ := hh
    exact ⟨h1, h3.stable hR, h4.stable hR h3 (fun _ h => h)⟩
  | wReBlock src index blocks =>
    obtain ⟨h1, h2, h3, h4⟩ := hh
    exact ⟨h1, index_le_stable hR h2, h3.stable hR, h4.stable hR h3 (fun _ h => h)⟩
  | wRoot src index new blocks => exact hh
  | wRootStore src index new blocks => exact hh
  | wCas src index block blocks =>
    obtain ⟨h1, h2, h3, h4, h5, h6⟩ := hh
    exact ⟨h1, h2.stable hI hR, h3, h4, h5.stable hR, h6.stable hR h5 (fun _ h => h)⟩
  | wSeg w =>
    obtain ⟨h1, h2, h3⟩ := hh
    exact ⟨h1.stable hR, h2.stable hR h1 (fun _ h => h), h3.stable hR⟩
  | wNext w =>
    obtain ⟨h1, h2, h3, h4⟩ := hh
    exact ⟨h1.stable hR, h2.stable hR h1 (fun _ h => h), h3.stable hR, h4⟩
  | wCopy w next i =>
    obtain ⟨h1, h2, h3⟩ := hh
    exact ⟨h1.stable hR, h2.stable hR h1 (fun _ h => h), h3.stable hR⟩
  | wPublish w next =>
    obtain ⟨h1, h2, h3⟩ := hh
    exact ⟨h1.stable hR, h2.stable hR h1 (fun _ h => h), h3.stable hR⟩
  | wDrop w =>
    obtain ⟨h1, h2, a, h3, h4⟩ := hh
    exact ⟨h1.stable hR, h2, a, hR.resv.trans h3, hR.ledger.sent h4⟩
  | apFind w token curr blocks =>
    have hown : g.pown = some u := hP.mpr rfl
    obtain ⟨h1, j, h2, h3, h4⟩ := hh
    obtain ⟨_, _, hl, _⟩ := hR.pown hown
    refine ⟨h1.stable hR hown, j, ?_, ?_, ?_⟩
    · rw [hR.pk_eq hown]; exact h2
    · rw [hl]; exact h3
    · rw [hl]; exact h4
  | apLink w token curr blocks =>
    have hown : g.pown = some u := hP.mpr rfl
    obtain ⟨_, _, hl, _⟩ := hR.pown hown
    refine ⟨hh.1.stable hR hown, ?_⟩
    rw [hl]; exact hh.2
  | apWalk a => exact ⟨hh.1.stable hR (hP.mpr rfl), hh.2⟩
  | apHas a => exact ⟨hh.1.stable hR (hP.mpr rfl), hh.2⟩
  | apBlock a hasNext =>
    have hown : g.pown = some u := hP.mpr rfl
    obtain ⟨h1, h2, h3, h4, h5⟩ := hh
    obtain ⟨_, _, hl, _⟩ := hR.pown hown
    refine ⟨h1.stable hR hown, h2, h3, h4, ?_⟩
    rw [hl, hR.pk_eq hown]; exact h5
  | apIndex a hasNext =>
    have hown : g.pown = some u := hP.mpr rfl
    obtain ⟨h1, h2, h3, h4, h5, h6⟩ := hh
    obtain ⟨_, hb, hl, _⟩ := hR.pown hown
    refine ⟨h1.stable hR hown, h2, h3, h4, ?_, ?_⟩
    · rw [hl, hR.pk_eq hown]; exact h5
    · rw [hb]; exact h6
  | tLoad ret => exact hh.stable hI hR
  | tCas ret head => exact TakeOk.stable hI hR hh
  | tWalk ret taken rest => exact ⟨hh.1.stable hI hR, hh.2.stable hR⟩
  | aAlloc ret acc n => exact ⟨hh.1, hh.2.stable hI hR⟩
  | fDrop blocks freed => exact Owned.stable hR hh
  | rIndex cap => exact hh
  | rBlock cap index => exact ⟨hh.1, cindex_le_stable hR hh.2⟩
  | rLoop cap index block => exact ⟨hh.1, hh.2.stable hI hR⟩
  | rPidx cap index block => exact ⟨hh.1, hh.2.1.stable hI hR, hh.2.2⟩
  | rCas cap index block newIndex =>
    exact ⟨hh.1, hh.2.1.stable hI hR, hh.2.2.1, hh.2.2.2.stable hR⟩
  | rSeg r => exact Reading.stable hR hh
  | rProduced r => exact ⟨hh.1.stable hR, hh.2⟩
  | rPending r produced =>
    exact ⟨hh.1.stable hR, hh.2.1, hh.2.2.trans (published_tally_le hR _ _)⟩
  | rCopy r i => exact Draining.stable hR hh
  | rNext r => exact Draining.stable hR hh
  | rConsume r next => exact ⟨hh.1.stable hR, hh.2.stable hI hR hh.1⟩
  | rVblocks r next => exact ⟨hh.1.stable hR, (hR.vstat _ _).mpr hh.2.1, hh.2.2.stable hR⟩
  | acLoad r newIndex => exact ⟨hh.1.stable hR (hC.mpr rfl), hh.2⟩
  | acLoop r newIndex pidx blk => exact ⟨hh.1.stable hR (hC.mpr rfl), hh.2.stable hI hR⟩
  | acNext r newIndex pidx blk =>
    exact ⟨hh.1.stable hR (hC.mpr rfl), hh.2.1.stable hI hR, hh.2.2⟩
  | acBlock r newIndex blk => exact ⟨hh.1.stable hR (hC.mpr rfl), hh.2.stable hI hR⟩
  | acIndex r newIndex =>
    have hown : g.cown = some u := hC.mpr rfl
    refine ⟨hh.1.stable hR hown, ?_⟩
    rw [(hR.cown hown).2]
    exact hh.2.stable hI hR
  | cReset r next b =>
    refine ⟨hh.1.stable hR, ?_⟩
    rw [(hR.held b hh.1.1).2]; exact hh.2
  | cLoad r next b =>
    refine ⟨hh.1.stable hR, ?_⟩
    rw [(hR.held b hh.1.1).2]; exact hh.2
  | cLink r next b head =>
    refine ⟨hh.1.stable hR, ?_⟩
    rw [(hR.held b hh.1.1).2]; exact hh.2
  | cPush r next b head =>
    refine ⟨hh.1.stable hR, ?_⟩
    rw [(hR.held b hh.1.1).2]; exact hh.2
  | cFree r next b =>
    refine ⟨hh.1.stable hR, ?_⟩
    rw [(hR.held b hh.1.1).2]; exact hh.2

end V8
