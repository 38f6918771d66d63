/-
# Steps on the two heads

The producer head moves in one step (a reservation inside a block) or in four
(a reservation that reaches the sentinel, linking fresh blocks, storing
`producer.block`, storing `producer.index`); likewise the consumer head, which
links nothing.  Between the first and the last of these steps the head is held
by one thread, and the packed index only ever grows.
-/
import Ubq.V8.Blocks

namespace V8

variable {T : Type*} {cfg : Config} {t u : Tid} {s s' : Shared T} {g g' : Ghost T}
variable {e : Tid × ℕ × List T}

/-! ## Reading the heads -/

/-- A producer index that is not a sentinel is not held by anyone. -/
theorem phead_onSlot (h : Inv cfg s g) (hs : OnSlot cfg s.producerIndex) :
    g.pown = none ∧ ∃ off f, off < cfg.cap ∧ f < 2 ∧ s.producerIndex = cfg.word g.pk off f ∧
      g.L.ppos = g.pk * cfg.cap + off ∧ s.producerBlock = s.linked[g.pk]? ∧
      (f = 1 → g.pk + 1 < s.linked.length) := by
  have hp := h.phead
  unfold ProdHead at hp
  cases hown : g.pown with
  | none =>
    rw [hown] at hp
    exact ⟨rfl, hp⟩
  | some u =>
    rw [hown] at hp
    obtain ⟨f, hf, hidx, _⟩ := hp
    have hmod : s.producerIndex / 2 % cfg.stride = cfg.cap := by
      rw [hidx, word_div_two cfg hf, Nat.mul_add_mod, Nat.mod_eq_of_lt cfg.cap_lt_stride]
    unfold OnSlot at hs
    omega

/-- A consumer index that is not a sentinel is not held by anyone. -/
theorem chead_onSlot (h : Inv cfg s g) (hs : OnSlot cfg s.consumerIndex) :
    g.cown = none ∧ ∃ off f, off < cfg.cap ∧ f < 2 ∧ s.consumerIndex = cfg.word g.ck off f ∧
      g.L.cpos = g.ck * cfg.cap + off ∧ s.consumerBlock = s.linked[g.ck]? ∧
      (f = 1 → g.ck < g.pk) := by
  have hp := h.chead
  unfold ConsHead at hp
  cases hown : g.cown with
  | none =>
    rw [hown] at hp
    exact ⟨rfl, hp⟩
  | some u =>
    rw [hown] at hp
    obtain ⟨f, hf, hidx, _⟩ := hp
    have hmod : s.consumerIndex / 2 % cfg.stride = cfg.cap := by
      rw [hidx, word_div_two cfg hf, Nat.mul_add_mod, Nat.mod_eq_of_lt cfg.cap_lt_stride]
    unfold OnSlot at hs
    omega

/-- The producer index, held or not: offset `po` of block `pk`, and everything
below it is reserved. -/
theorem pidx_split (h : Inv cfg s g) :
    ∃ po, s.producerIndex / 2 = cfg.stride * g.pk + po ∧ po ≤ cfg.cap ∧
      g.pk * cfg.cap + po ≤ g.L.ppos ∧
      (po < cfg.cap → g.pown = none ∧ g.L.ppos = g.pk * cfg.cap + po) := by
  have hp := h.phead
  unfold ProdHead at hp
  cases hown : g.pown with
  | none =>
    rw [hown] at hp
    obtain ⟨off, f, hoff, hf, hidx, hpos, _⟩ := hp
    exact ⟨off, by rw [hidx, word_div_two cfg hf], by omega, by omega, fun _ => ⟨rfl, hpos⟩⟩
  | some u =>
    rw [hown] at hp
    obtain ⟨f, hf, hidx, hpos⟩ := hp
    exact ⟨cfg.cap, by rw [hidx, word_div_two cfg hf], by omega, by omega, fun hc => by omega⟩

/-- The consumer index, held or not: offset `co` of block `ck`, and exactly
what is below it is claimed. -/
theorem cidx_split (h : Inv cfg s g) :
    ∃ co, s.consumerIndex / 2 = cfg.stride * g.ck + co ∧ co ≤ cfg.cap ∧
      g.L.cpos = g.ck * cfg.cap + co := by
  have hp := h.chead
  unfold ConsHead at hp
  cases hown : g.cown with
  | none =>
    rw [hown] at hp
    obtain ⟨off, f, hoff, hf, hidx, hpos, _⟩ := hp
    exact ⟨off, by rw [hidx, word_div_two cfg hf], by omega, hpos⟩
  | some u =>
    rw [hown] at hp
    obtain ⟨f, hf, hidx, hpos⟩ := hp
    exact ⟨cfg.cap, by rw [hidx, word_div_two cfg hf], by omega, hpos⟩

/-- **The consumer index never overtakes the producer index.** -/
theorem cidx_le_pidx (h : Inv cfg s g) : s.consumerIndex / 2 ≤ s.producerIndex / 2 := by
  obtain ⟨po, hp, hpo, _, hpown⟩ := pidx_split h
  obtain ⟨co, hc, hco, hcpos⟩ := cidx_split h
  have hstride := cfg.cap_lt_stride
  have hle := h.cpos_le
  have hck := h.ck_le
  rw [hp, hc]
  rcases Nat.lt_or_eq_of_le hck with hlt | heq
  · exact Nat.le_of_lt (ridx_lt_of_token_lt cfg (by omega) hlt)
  · rw [heq] at hcpos ⊢
    by_cases hcap : po < cfg.cap
    · have := (hpown hcap).2
      omega
    · omega

/-! ## History -/

theorem lastResv_self {l : List (Tid × ℕ × List T)}
    (hs : s'.reservations = l ++ [e]) : s'.lastResv e.1 = some e := by
  simp [Shared.lastResv, hs]

theorem lastResv_other (hs : s'.reservations = s.reservations ++ [e])
    (hu : e.1 ≠ u) : s'.lastResv u = s.lastResv u := by
  simp [Shared.lastResv, hs, hu]

theorem lastResv_mem (h : s.lastResv t = some e) : e ∈ s.reservations :=
  List.mem_of_mem_filter (List.mem_of_getLast? h)

theorem History.sent_len (h : History cfg s g) : s.sent.length = g.L.ppos := h.log.sent_len

theorem History.claim_len (h : History cfg s g) : s.claimedLen = g.L.cpos := h.log.claim_len

/-- The history after `t` has reserved the next positions for `src`. -/
theorem History.reserve (hw : g.L.WF) (h : History cfg s g) (src : List T) :
    History cfg { s with reservations := s.reservations ++ [(t, g.L.ppos, src)] }
      { g with L := g.L.reserve t src } := by
  have hstep : Ledger.Step t g.L (g.L.reserve t src) := .reserve src
  refine { h with
    log := h.log.reserve hw t src
    resv_cover := fun p x hx => ?_
    copied_val := fun e he => hstep.value? hw (h.copied_val e he)
    copied_mem := fun p x hx => h.copied_mem p x (hw.reserve_stored hx)
    trace_write := fun e he src' hop => ?_ }
  · have hx' : ((g.L.reserve t src).prod p).value? = some x := hx
    by_cases hlt : p < g.L.ppos
    · rw [Ledger.reserve_prod_old g.L t src hlt] at hx'
      obtain ⟨e, he, hex⟩ := h.resv_cover p x hx'
      exact ⟨e, List.mem_append_left _ he, hex⟩
    · have hplt : p < g.L.ppos + src.length := by
        apply (hstep.wf hw).reserved_lt
        intro hfree
        simp [hfree] at hx'
      obtain ⟨j, rfl⟩ : ∃ j, p = g.L.ppos + j := ⟨p - g.L.ppos, by omega⟩
      have hj : src[j]? = some src[j] := List.getElem?_eq_getElem (by omega)
      rw [Ledger.reserve_prod_new g.L t src hj] at hx'
      refine ⟨(t, g.L.ppos, src), by simp, by simp, ?_⟩
      rwa [Nat.add_sub_cancel_left, hj]
  · obtain ⟨hres, hsrc⟩ := h.trace_write e he src' hop
    refine ⟨hres, hsrc.imp_right ?_⟩
    rintro ⟨a, ha, hst⟩
    exact ⟨a, List.mem_append_left _ ha, fun j x hj => hstep.published hw (hst j x hj)⟩

/-- The history after `t` has claimed the next `n` positions. -/
theorem History.claim (hw : g.L.WF) (h : History cfg s g) (n : ℕ) :
    History cfg { s with claims := s.claims ++ [(t, g.L.cpos, n)] }
      { g with L := g.L.claim t n } := by
  refine { h with
    log := h.log.claim hw t n
    claim_owner := fun p u hp => ?_
    deliv_claim := fun e he => ?_ }
  · have hp' : (g.L.claim t n).cons p = .claimed u ∨ (g.L.claim t n).cons p = .taken u := hp
    by_cases hin : g.L.cpos ≤ p ∧ p < g.L.cpos + n
    · rw [Ledger.claim_cons_in _ _ hin.1 hin.2] at hp'
      refine ⟨(t, g.L.cpos, n), by simp, ?_, hin⟩
      rcases hp' with hp' | hp'
      · injection hp'
      · cases hp'
    · rw [Ledger.claim_cons_out _ _ hin] at hp'
      obtain ⟨e, he, hrest⟩ := h.claim_owner p u hp'
      exact ⟨e, List.mem_append_left _ he, hrest⟩
  · obtain ⟨c, hc, hrest⟩ := h.deliv_claim e he
    exact ⟨c, List.mem_append_left _ hc, hrest⟩

/-! ## The producer head -/

/-- **Reserving** the positions from `ppos` on for the values `src`. -/
theorem ok_reserve (h : Inv cfg s g) (hown : g.pown = none) (src : List T) {newIndex : ℕ}
    {pown' : Option Tid} (hp' : pown' = none ∨ pown' = some t)
    (hlt : s.producerIndex < newIndex)
    (hhead : ProdHead cfg { s with producerIndex := newIndex }
      { g with L := g.L.reserve t src, pown := pown' }) :
    Ok cfg t s g
      { s with
        producerIndex := newIndex
        reservations := s.reservations ++ [(t, g.L.ppos, src)] }
      { g with L := g.L.reserve t src, pown := pown' } := by
  have hstep : Ledger.Step t g.L (g.L.reserve t src) := .reserve src
  refine ⟨{ h with
    ledger := hstep.wf h.ledger
    cpos_le := h.cpos_le.trans (Nat.le_add_right _ _)
    content := fun a k ha => (h.content a k ha).congr
      (fun p => h.ledger.reserve_isPublished) (fun p => rfl) (fun p x => h.ledger.reserve_stored)
    phead := hhead
    hist := { h.hist.reserve h.ledger src with } }, fun u hu => ?_⟩
  refine { Rely.refl u s g with
    ledger := hstep.frame h.ledger hu
    resv := lastResv_other rfl hu.symm
    pidx := Or.inr hlt
    pown := fun hc => ?_
    pown_iff := ?_ }
  · simp [hown] at hc
  · rw [hown]
    rcases hp' with rfl | rfl
    · exact Iff.rfl
    · exact iff_of_false (not_mine rfl hu) (by simp)

theorem Content.setNext {L : Ledger Tid T} {vstat : ℕ → ℕ → VStat} {k : ℕ} {b : Block T}
    {p : Option Addr} (h : Content cfg L vstat k b) : Content cfg L vstat k (b.setNext p) :=
  ⟨h.produced, h.consumed, h.vblocks, h.slots⟩

/-- A clean block is right for a token none of whose positions is in use. -/
theorem Content.of_clean {L : Ledger Tid T} {vstat : ℕ → ℕ → VStat} {k : ℕ} {b : Block T}
    (hb : b.Clean) (hpub : ∀ p x, k * cfg.cap ≤ p → ¬ L.Stored p x)
    (hcons : ∀ p, k * cfg.cap ≤ p → L.cons p = .free)
    (hvst : ∀ v, v < cfg.nv → vstat k v = .opened) : Content cfg L vstat k b := by
  have hge : ∀ v o, k * cfg.cap ≤ cfg.pos k v o := fun v o => by
    unfold Config.pos
    omega
  refine ⟨fun v hv => ?_, fun v hv => ?_, ?_, fun v o x hv ho hx => ?_⟩
  · rw [hb.2 v, tally_eq_zero]
    intro p h1 _
    by_contra hc
    obtain ⟨x, hx⟩ := Ledger.PCell.isPublished_iff.mp (by simpa using hc)
    exact hpub p x ((hge v 0).trans h1) (Or.inl hx)
  · rw [hb.2 v, tally_eq_zero]
    intro p h1 _
    rw [hcons p ((hge v 0).trans h1)]
    rfl
  · rw [hb.1, tally_eq_zero]
    intro v _ hv
    rw [hvst v (by omega)]
    rfl
  · exact absurd hx (hpub _ x (hge v o))

/-- **Linking** private blocks behind the last block of the chain, by the thread
that holds the producer head. -/
theorem ok_link (h : Inv cfg s g) (hown : g.pown = some t) {blocks : List Addr} {z : Addr}
    (hz : s.linked[s.linked.length - 1]? = some z)
    (hzown : g.owner z = .chain (s.linked.length - 1)) (ho : Owned t s g blocks)
    (hl : Linked s blocks)
    (hfresh : ∀ p x, s.linked.length * cfg.cap ≤ p → ¬ g.L.Stored p x) :
    Ok cfg t s g
      { s.modBlock z (·.setNext blocks.head?) with linked := s.linked ++ blocks }
      { g with owner := chainOwner g.owner s.linked.length blocks } := by
  have hlen := h.pk_lt
  have hcpos : g.L.cpos ≤ s.linked.length * cfg.cap := by
    have h1 := h.cpos_pk
    have h2 := token_mul_le cfg hlen
    omega
  have hmul : ∀ k, s.linked.length ≤ k → s.linked.length * cfg.cap ≤ k * cfg.cap :=
    fun k hk => Nat.mul_le_mul_right cfg.cap hk
  have hcons : ∀ p, s.linked.length * cfg.cap ≤ p → g.L.cons p = .free := fun p hp =>
    (h.ledger.cons_free p).mpr (hcpos.trans hp)
  have hvst : ∀ k, s.linked.length ≤ k → ∀ v, v < cfg.nv → g.vstat k v = .opened := by
    intro k hk v hv
    by_contra hne
    have hdone := h.finished k v 0 hv cfg.ns_pos hne
    rw [hcons] at hdone
    · exact absurd hdone (by simp)
    · have := hmul k hk
      unfold Config.pos
      omega
  have hheap : ∀ a, a ≠ z → (s.modBlock z (·.setNext blocks.head?)).heap a = s.heap a :=
    fun a ha => Function.update_of_ne ha _ _
  have hheld : ∀ a, a ∈ blocks → g.owner a = .held t := fun a ha => (ho.2 a ha).1
  have hnotin : ∀ a, (∀ u, g.owner a ≠ .held u) → a ∉ blocks := fun a ha hc => ha t (hheld a hc)
  have hzb : z ∉ blocks := hnotin z (by rw [hzown]; simp)
  have hpool :
      ∀ a, chainOwner g.owner s.linked.length blocks a = .pooled ↔ g.owner a = .pooled := by
    intro a
    by_cases hab : a ∈ blocks
    · rw [chainOwner_of_mem hab, hheld a hab]
      simp
    · rw [chainOwner_of_notMem hab]
  have hcz : ∀ a ∈ g.cache, a ≠ z := by
    rintro a ha rfl
    have := (h.cache_mem a).mpr ha
    simp [hzown] at this
  have hget : ∀ k, k < s.linked.length → (s.linked ++ blocks)[k]? = s.linked[k]? :=
    fun k hk => List.getElem?_append_left hk
  refine ⟨{ h with
    chain := ?_
    live := fun k a ha => ?_
    freed := fun a ha => ?_
    used := fun a ha => ?_
    unretired := fun a k ha => ?_
    content := fun a k ha => ?_
    cache_path := fun p hp => path_congr (fun a ha => ?_) (h.cache_path p hp)
    cache_mem := fun a => (hpool a).trans (h.cache_mem a)
    cache_clean := fun a ha => ?_
    pk_lt := ?_
    phead := ?_
    cblock := ?_
    chead := ?_
    hist := { h.hist with } }, fun u hu => ?_⟩
  · have hext := h.chain.extend ho.1 hheld hl hz hzown
    rwa [← modBlock_next] at hext
  · show chainOwner g.owner s.linked.length blocks a = .chain k ∨ _
    by_cases hk : k < s.linked.length
    · rw [show ({ s.modBlock z (·.setNext blocks.head?) with linked := s.linked ++ blocks } :
          Shared T).linked = s.linked ++ blocks from rfl, hget k hk] at ha
      rcases h.live k a ha with h1 | h1
      · rw [chainOwner_of_notMem (hnotin a (by rw [h1]; simp))]
        exact Or.inl h1
      · exact Or.inr h1
    · rw [show ({ s.modBlock z (·.setNext blocks.head?) with linked := s.linked ++ blocks } :
          Shared T).linked = s.linked ++ blocks from rfl,
        List.getElem?_append_right (by omega)] at ha
      left
      rw [chainOwner_of_mem (List.mem_of_getElem? ha)]
      obtain ⟨hi, heq⟩ := List.getElem?_eq_some_iff.mp ha
      rw [← heq, ho.1.idxOf_getElem _ hi]
      congr 1
      omega
  · have hfree := h.freed a ha
    show chainOwner g.owner s.linked.length blocks a = .free
    rwa [chainOwner_of_notMem (hnotin a (by rw [hfree]; simp))]
  · show chainOwner g.owner s.linked.length blocks a ≠ .free
    by_cases hab : a ∈ blocks
    · rw [chainOwner_of_mem hab]
      simp
    · rw [chainOwner_of_notMem hab]
      exact h.used a ha
  · show Content cfg g.L g.vstat k ((s.modBlock z (·.setNext blocks.head?)).heap a)
    by_cases hab : a ∈ blocks
    · have hk : s.linked.length ≤ k := by
        rw [show ({ g with owner := chainOwner g.owner s.linked.length blocks } : Ghost T).owner
          = chainOwner g.owner s.linked.length blocks from rfl, chainOwner_of_mem hab] at ha
        injection ha with ha
        omega
      have haz : a ≠ z := by
        rintro rfl
        exact hzb hab
      rw [hheap a haz]
      exact Content.of_clean (ho.2 a hab).2 (fun p x hp => hfresh p x ((hmul k hk).trans hp))
        (fun p hp => hcons p ((hmul k hk).trans hp)) (hvst k hk)
    · have ha' : g.owner a = .chain k :=
        (chainOwner_of_notMem (n := s.linked.length) hab).symm.trans ha
      by_cases haz : a = z
      · subst haz
        have := (h.content a k ha').setNext (p := blocks.head?)
        simpa [Shared.modBlock] using this
      · rw [hheap a haz]
        exact h.content a k ha'
  · by_cases hab : a ∈ blocks
    · have hk : chainOwner g.owner s.linked.length blocks a = .chain k := ha
      rw [chainOwner_of_mem hab] at hk
      injection hk with hk
      refine ⟨0, cfg.nv_pos, ?_⟩
      show g.vstat k 0 ≠ .counted
      rw [hvst k (by omega) 0 cfg.nv_pos]
      simp
    · exact h.unretired a k ((chainOwner_of_notMem (n := s.linked.length) hab).symm.trans ha)
  · show (((s.modBlock z (·.setNext blocks.head?)).heap a).next) = (s.heap a).next
    rw [hheap a (hcz a ha)]
  · show ((s.modBlock z (·.setNext blocks.head?)).heap a).Clean
    rw [hheap a (hcz a ha)]
    exact h.cache_clean a ha
  · show g.pk < (s.linked ++ blocks).length
    rw [List.length_append]
    omega
  · have hp := h.phead
    unfold ProdHead at hp ⊢
    dsimp only
    rw [hown] at hp ⊢
    exact hp
  · obtain ⟨j, h1, h2, h3⟩ := h.cblock
    refine ⟨j, h1, ?_, ?_⟩
    · show j < (s.linked ++ blocks).length
      rw [List.length_append]
      omega
    · show s.consumerBlock = (s.linked ++ blocks)[j]?
      rwa [hget j h2]
  · have hc := h.chead
    have hck : g.ck < s.linked.length := Nat.lt_of_le_of_lt h.ck_le hlen
    unfold ConsHead at hc ⊢
    dsimp only
    simp only [hget g.ck hck]
    exact hc
  · refine { Rely.refl u s g with
      linked := List.prefix_append _ _
      held := fun a ha => ?_
      keeps := fun a ha => (chainOwner_held ha).2
      pown := fun hc => absurd hc (not_mine hown hu) }
    have hab : a ∉ blocks := fun hc => by
      rw [hheld a hc] at ha
      injection ha with ha
      exact hu ha.symm
    have haz : a ≠ z := by
      rintro rfl
      simp [hzown] at ha
    exact ⟨(chainOwner_of_notMem hab).trans ha, hheap a haz⟩

/-- Storing `producer.block` while the head is held. -/
theorem ok_producerBlock (h : Inv cfg s g) (hown : g.pown = some t) {p : Option Addr}
    (hp : p ≠ none) : Ok cfg t s g { s with producerBlock := p } g := by
  refine ⟨{ h with pblock := hp, phead := ?_, hist := { h.hist with } }, fun u hu =>
    { Rely.refl u s g with pown := fun hc => absurd hc (not_mine hown hu) }⟩
  have hph := h.phead
  unfold ProdHead at hph ⊢
  rw [hown] at hph ⊢
  exact hph

/-- Storing `producer.index`, which releases the head at block `k`. -/
theorem ok_producerIndex (h : Inv cfg s g) (hown : g.pown = some t) {k off f : ℕ}
    (hk : g.pk < k) (hlen : k < s.linked.length) (hoff : off < cfg.cap) (hf : f < 2)
    (hpos : k * cfg.cap + off = g.L.ppos) (hblk : s.producerBlock = s.linked[k]?)
    (hflag : f = 1 → k + 1 < s.linked.length) :
    Ok cfg t s g { s with producerIndex := cfg.word k off f } { g with pk := k, pown := none } := by
  have hph := h.phead
  unfold ProdHead at hph
  rw [hown] at hph
  obtain ⟨f', hf', hidx, _⟩ := hph
  refine ⟨{ h with
    pk_lt := hlen
    phead := ⟨off, f, hoff, hf, rfl, hpos.symm, hblk, hflag⟩
    ck_le := h.ck_le.trans (Nat.le_of_lt hk)
    cpos_pk := ?_
    chead := ?_
    hist := { h.hist with } }, fun u hu => ?_⟩
  · have h1 := h.cpos_pk
    have h2 := token_mul_le cfg hk
    show g.L.cpos ≤ k * cfg.cap + cfg.cap
    omega
  · have hc := h.chead
    unfold ConsHead at hc ⊢
    cases hcown : g.cown with
    | none =>
      rw [hcown] at hc
      obtain ⟨o, f, h1, h2, h3, h4, h5, h6⟩ := hc
      refine ⟨o, f, h1, h2, h3, h4, h5, fun hf => ?_⟩
      show g.ck < k
      omega
    | some v =>
      rwa [hcown] at hc
  · refine { Rely.refl u s g with
      pk := Nat.le_of_lt hk
      pidx := Or.inr ?_
      pown := fun hc => absurd hc (not_mine hown hu)
      pown_iff := iff_of_false (by simp) (not_mine hown hu) }
    show s.producerIndex < cfg.word k off f
    have hword : cfg.stride * g.pk + cfg.cap < cfg.stride * k + off :=
      ridx_lt_of_token_lt cfg cfg.cap_lt_stride hk
    rw [hidx]
    unfold Config.word
    omega

/-! ## The consumer head -/

/-- **Claiming** `n` positions from `cpos` on; `ck'` is the block of the new index. -/
theorem ok_claim (h : Inv cfg s g) (n ck' : ℕ) {newIndex : ℕ} {cown' : Option Tid}
    (hcown : g.cown = none ∨ g.cown = some t) (hc' : cown' = none ∨ cown' = some t)
    (hlt : s.consumerIndex < newIndex) (hppos : g.L.cpos + n ≤ g.L.ppos)
    (hpk : g.L.cpos + n ≤ g.pk * cfg.cap + cfg.cap) (hckpk : ck' ≤ g.pk)
    (hblk : s.consumerBlock = s.linked[ck']?)
    (hhead : ConsHead cfg { s with consumerIndex := newIndex }
      { g with L := g.L.claim t n, ck := ck', cown := cown' }) :
    Ok cfg t s g
      { s with consumerIndex := newIndex, claims := s.claims ++ [(t, g.L.cpos, n)] }
      { g with L := g.L.claim t n, ck := ck', cown := cown' } := by
  have hstep : Ledger.Step t g.L (g.L.claim t n) := .claim n
  have hlen := h.pk_lt
  refine ⟨{ h with
    ledger := hstep.wf h.ledger
    cpos_le := hppos
    content := fun a k ha => Content.congr (L := g.L) (fun p => rfl)
      (fun p => h.ledger.claim_isDone) (fun p x hx => hx) (h.content a k ha)
    finished := fun k v o hv ho hne => ?_
    unfinished := fun k v hv hop => ?_
    ck_le := hckpk
    cpos_pk := hpk
    cblock := ⟨ck', le_refl _, by show ck' < s.linked.length; omega, hblk⟩
    chead := hhead
    hist := { h.hist.claim h.ledger n with } }, fun u hu => ?_⟩
  · have hdone := h.finished k v o hv ho hne
    rcases h.ledger.claim_cons t n (cfg.pos k v o) with h1 | ⟨h1, _⟩
    · rwa [h1]
    · simp [h1] at hdone
  · obtain ⟨o, ho, hne⟩ := h.unfinished k v hv hop
    refine ⟨o, ho, fun hd => hne ?_⟩
    rwa [← Ledger.CCell.isDone_iff, h.ledger.claim_isDone, Ledger.CCell.isDone_iff] at hd
  · have hne : ∀ o : Option Tid, (o = none ∨ o = some t) → ¬ o = some u := by
      rintro o (rfl | rfl)
      · simp
      · exact not_mine rfl hu
    exact { Rely.refl u s g with
      ledger := hstep.frame h.ledger hu
      covers := fun _ _ hc => hstep.covers hu hc
      cidx := Or.inr hlt
      cown := fun hc => absurd hc (hne _ hcown)
      cown_iff := iff_of_false (hne _ hc') (hne _ hcown) }

/-- Storing `consumer.block` while the head is held. -/
theorem ok_consumerBlock (h : Inv cfg s g) (hown : g.cown = some t) {j : ℕ} (hj : g.ck ≤ j)
    (hlen : j < s.linked.length) : Ok cfg t s g { s with consumerBlock := s.linked[j]? } g := by
  refine ⟨{ h with cblock := ⟨j, hj, hlen, rfl⟩, chead := ?_, hist := { h.hist with } },
    fun u hu => { Rely.refl u s g with cown := fun hc => absurd hc (not_mine hown hu) }⟩
  have hch := h.chead
  unfold ConsHead at hch ⊢
  rw [hown] at hch ⊢
  exact hch

end V8
