/-
# Steps on a live block

The four ways in which threads work on a block of the chain: a producer fills a
slot and publishes a segment, a consumer moves a value out and completes a
segment.  Each is one step of the ledger together with one write to the block,
so they share one rule, `ok_block`: what changes stays within the positions of
the block, and the block's new content agrees with the new ledger.
-/
import Ubq.V8.Moves

namespace V8

open Function

variable {T : Type*} {cfg : Config} {t u : Tid} {s s' : Shared T} {g g' : Ghost T}
variable {a : Addr} {vstat' : ℕ → ℕ → VStat} {k v k' v' : ℕ}

/-! ## Windows of positions -/

theorem pos_inj {k v o k' v' o' : ℕ} (hv : v < cfg.nv) (ho : o < cfg.ns) (hv' : v' < cfg.nv)
    (ho' : o' < cfg.ns) (h : cfg.pos k v o = cfg.pos k' v' o') : k = k' ∧ v = v' ∧ o = o' := by
  have h1 := pos_lt_succ cfg (k := k) hv ho
  have h2 := pos_lt_succ cfg (k := k') hv' ho'
  have hk : k = k' := by
    apply le_antisymm
    · exact token_of_lt cfg (p := cfg.pos k v o) (by unfold Config.pos; omega) (by omega)
    · exact token_of_lt cfg (p := cfg.pos k' v' o') (by unfold Config.pos; omega) (by omega)
  subst hk
  have hoff : v * cfg.ns + o = v' * cfg.ns + o' := by
    unfold Config.pos at h
    omega
  have hdiv : ∀ v o, o < cfg.ns → (v * cfg.ns + o) / cfg.ns = v := fun v o ho => by
    rw [Nat.mul_comm, Nat.mul_add_div cfg.ns_pos, Nat.div_eq_of_lt ho, Nat.add_zero]
  have hvv : v = v' := by rw [← hdiv v o ho, hoff, hdiv v' o' ho']
  subst hvv
  exact ⟨rfl, rfl, by omega⟩

/-- A position lies in the window of one virtual block only. -/
theorem window_inj {k v k' v' p : ℕ} (hv : v < cfg.nv) (hv' : v' < cfg.nv)
    (h1 : cfg.pos k v 0 ≤ p) (h2 : p < cfg.pos k v 0 + cfg.ns)
    (h3 : cfg.pos k' v' 0 ≤ p) (h4 : p < cfg.pos k' v' 0 + cfg.ns) : k = k' ∧ v = v' := by
  have heq : cfg.pos k v (p - cfg.pos k v 0) = cfg.pos k' v' (p - cfg.pos k' v' 0) := by
    rw [← cons_pos_add cfg k v, ← cons_pos_add cfg k' v' (p - _)]
    omega
  obtain ⟨hk, hvv, _⟩ := pos_inj hv (by omega) hv' (by omega) heq
  exact ⟨hk, hvv⟩

/-- The window of a virtual block lies within the positions of its block. -/
theorem window_in_block {k v p : ℕ} (hv : v < cfg.nv) (h1 : cfg.pos k v 0 ≤ p)
    (h2 : p < cfg.pos k v 0 + cfg.ns) : k * cfg.cap ≤ p ∧ p < k * cfg.cap + cfg.cap := by
  have h3 := pos_lt_succ cfg (k := k) (o := p - cfg.pos k v 0) hv (by omega)
  rw [← cons_pos_add] at h3
  constructor
  · unfold Config.pos at h1
    omega
  · omega

/-- The positions of different blocks are disjoint. -/
theorem block_inj {k k' p : ℕ} (h : k * cfg.cap ≤ p ∧ p < k * cfg.cap + cfg.cap)
    (h' : k' * cfg.cap ≤ p ∧ p < k' * cfg.cap + cfg.cap) : k = k' :=
  le_antisymm (token_of_lt cfg h.1 h'.2) (token_of_lt cfg h'.1 h.2)

/-! ## One rule for all steps on a live block -/

/-- The content of a block does not depend on the positions of another one. -/
theorem Content.other {L L' : Ledger Tid T} {vstat vstat' : ℕ → ℕ → VStat} {k k' : ℕ}
    {b : Block T} (hk : k' ≠ k)
    (hprod : ∀ p, ¬ (k * cfg.cap ≤ p ∧ p < k * cfg.cap + cfg.cap) → L'.prod p = L.prod p)
    (hcons : ∀ p, ¬ (k * cfg.cap ≤ p ∧ p < k * cfg.cap + cfg.cap) → L'.cons p = L.cons p)
    (hvst : ∀ v, vstat' k' v = vstat k' v) (h : Content cfg L vstat k' b) :
    Content cfg L' vstat' k' b := by
  have hout : ∀ v p, v < cfg.nv → cfg.pos k' v 0 ≤ p → p < cfg.pos k' v 0 + cfg.ns →
      ¬ (k * cfg.cap ≤ p ∧ p < k * cfg.cap + cfg.cap) := fun v p hv h1 h2 hc =>
    hk (block_inj (window_in_block hv h1 h2) hc)
  refine ⟨fun v hv => ?_, fun v hv => ?_, ?_, fun v o x hv ho hx => ?_⟩
  · rw [h.produced v hv]
    exact tally_congr fun p h1 h2 => by rw [hprod p (hout v p hv h1 h2)]
  · rw [h.consumed v hv]
    exact tally_congr fun p h1 h2 => by rw [hcons p (hout v p hv h1 h2)]
  · rw [h.vblocks]
    exact tally_congr fun v _ _ => by rw [hvst v]
  · apply h.slots v o x hv ho
    have hp := hprod (cfg.pos k' v o)
      (hout v _ hv (by rw [← cons_pos_add cfg k' v o]; omega)
        (by rw [← cons_pos_add cfg k' v o]; omega))
    simpa [Ledger.Stored, hp] using hx

/-- **The rule for a step on the live block `a` with token `k`.** -/
theorem ok_block (h : Inv cfg s g) {k : ℕ} (ha : g.owner a = .chain k)
    {L' : Ledger Tid T} (hstep : Ledger.Step t g.L L') (hpp : L'.ppos = g.L.ppos)
    (hcp : L'.cpos = g.L.cpos) (b' : Block T) (hnext : b'.next = (s.heap a).next)
    (hprod : ∀ p, ¬ (k * cfg.cap ≤ p ∧ p < k * cfg.cap + cfg.cap) → L'.prod p = g.L.prod p)
    (hcons : ∀ p, ¬ (k * cfg.cap ≤ p ∧ p < k * cfg.cap + cfg.cap) → L'.cons p = g.L.cons p)
    (hvst : ∀ k' v, k' ≠ k → vstat' k' v = g.vstat k' v)
    (hcnt : ∀ v, g.vstat k v = .counted → vstat' k v = .counted)
    (hfull : ∀ u v, u ≠ t → (vstat' k v = .full u ↔ g.vstat k v = .full u))
    (hfin : ∀ v o, v < cfg.nv → o < cfg.ns → vstat' k v ≠ .opened →
      L'.cons (cfg.pos k v o) = .done)
    (hopen : ∀ v, v < cfg.nv → vstat' k v = .opened →
      ∃ o, o < cfg.ns ∧ L'.cons (cfg.pos k v o) ≠ .done)
    (hret : ∃ v, v < cfg.nv ∧ vstat' k v ≠ .counted)
    (hc : Content cfg L' vstat' k b') {copied' : List (ℕ × T)} {delivered' : List (Tid × ℕ × T)}
    {recycled' : List ℕ} (hdel : ∀ e ∈ s.delivered, e ∈ delivered')
    (hh : History cfg
      { s with copied := copied', delivered := delivered', recycled := recycled' }
      { g with L := L', vstat := vstat' }) :
    Ok cfg t s g
      { s with
        heap := update s.heap a b', copied := copied', delivered := delivered'
        recycled := recycled' }
      { g with L := L', vstat := vstat' } := by
  have hother : ∀ a', a' ≠ a → update s.heap a b' a' = s.heap a' :=
    fun a' ha' => update_of_ne ha' _ _
  have hself : update s.heap a b' a = b' := update_self _ _ _
  have hlink : ∀ a', (update s.heap a b' a').next = (s.heap a').next := by
    intro a'
    by_cases haa : a' = a
    · subst haa
      rw [hself, hnext]
    · rw [hother a' haa]
  have hpool : ∀ a' ∈ g.cache, a' ≠ a := by
    rintro a' ha' rfl
    have := (h.cache_mem a').mpr ha'
    simp [ha] at this
  have htoken : ∀ a' k', g.owner a' = .chain k' → a' ≠ a → k' ≠ k := by
    rintro a' k' ha' hne rfl
    have h1 := h.chain.place a' k' ha'
    have h2 := h.chain.place a k' ha
    exact hne (Option.some.inj (h1.symm.trans h2))
  have hcnt' : ∀ k' v, g.vstat k' v = .counted → vstat' k' v = .counted := by
    intro k' v hv
    by_cases hk : k' = k
    · subst hk
      exact hcnt v hv
    · rwa [hvst k' v hk]
  refine ⟨{ h with
    ledger := hstep.wf h.ledger
    cpos_le := ?_
    chain := h.chain.congr fun a' k' ha' => ⟨ha', hlink a'⟩
    live := fun k' a' ha' => ?_
    content := fun a' k' ha' => ?_
    finished := fun k' v o hv ho hne => ?_
    unfinished := fun k' v hv hop => ?_
    unretired := fun a' k' ha' => ?_
    cache_path := fun p hp => path_congr (fun a' _ => hlink a') (h.cache_path p hp)
    cache_clean := fun a' ha' => ?_
    phead := ?_
    cpos_pk := ?_
    chead := ?_
    hist := { hh with } }, fun u hu => ?_⟩
  · show L'.cpos ≤ L'.ppos
    rw [hpp, hcp]
    exact h.cpos_le
  · rcases h.live k' a' ha' with h1 | h1
    · exact Or.inl h1
    · exact Or.inr fun v hv => hcnt' k' v (h1 v hv)
  · show Content cfg L' vstat' k' (update s.heap a b' a')
    by_cases haa : a' = a
    · subst haa
      have hk : k' = k := by
        rw [show g.owner a' = .chain k' from ha'] at ha
        simpa using ha
      rwa [hself, hk]
    · rw [hother a' haa]
      have hk := htoken a' k' ha' haa
      exact (h.content a' k' ha').other hk hprod hcons (fun v => hvst k' v hk)
  · show L'.cons (cfg.pos k' v o) = .done
    by_cases hk : k' = k
    · subst hk
      exact hfin v o hv ho hne
    · have hne' : g.vstat k' v ≠ .opened := by
        rwa [← hvst k' v hk]
      rw [hcons]
      · exact h.finished k' v o hv ho hne'
      · intro hin
        have hlt := pos_lt_succ cfg (k := k') hv ho
        exact hk (block_inj ⟨by unfold Config.pos; omega, hlt⟩ hin)
  · by_cases hk : k' = k
    · subst hk
      exact hopen v hv hop
    · have hop' : g.vstat k' v = .opened := (hvst k' v hk).symm.trans hop
      obtain ⟨o, ho, hne⟩ := h.unfinished k' v hv hop'
      refine ⟨o, ho, ?_⟩
      show L'.cons (cfg.pos k' v o) ≠ .done
      rw [hcons]
      · exact hne
      · intro hin
        have hlt := pos_lt_succ cfg (k := k') hv ho
        exact hk (block_inj ⟨by unfold Config.pos; omega, hlt⟩ hin)
  · show ∃ v, v < cfg.nv ∧ vstat' k' v ≠ .counted
    by_cases hk : k' = k
    · subst hk
      exact hret
    · obtain ⟨v, hv, hne⟩ := h.unretired a' k' ha'
      exact ⟨v, hv, by rwa [hvst k' v hk]⟩
  · show (update s.heap a b' a').Clean
    rw [hother a' (hpool a' ha')]
    exact h.cache_clean a' ha'
  · have hp := h.phead
    unfold ProdHead at hp ⊢
    dsimp only
    simp only [hpp]
    exact hp
  · show L'.cpos ≤ _
    rw [hcp]
    exact h.cpos_pk
  · have hc := h.chead
    unfold ConsHead at hc ⊢
    dsimp only
    simp only [hcp]
    exact hc
  · refine { Rely.refl u s g with
      ledger := hstep.frame h.ledger hu
      covers := fun _ _ hc => hstep.covers hu hc
      deliv := hdel
      held := fun a' ha' => ⟨ha', hother a' ?_⟩
      vstat := fun k' v => ?_
      pown := fun _ => ⟨rfl, rfl, rfl, hpp⟩ }
    · rintro rfl
      simp [ha] at ha'
    · show vstat' k' v = .full u ↔ _
      by_cases hk : k' = k
      · subst hk
        exact hfull u v hu
      · rw [hvst k' v hk]

/-! ## History under a step that reserves and claims nothing -/

/-- What a step that only copies or delivers has to show of the history. -/
theorem History.update (h : History cfg s g) {L' : Ledger Tid T}
    {delivered' : List (Tid × ℕ × T)} (hlog : Log.Agrees { s.log with delivered := delivered' } L')
    (hval : ∀ p, (L'.prod p).value? = (g.L.prod p).value?)
    (hpub : ∀ p x, g.L.prod p = .published x → L'.prod p = .published x)
    (hcell : ∀ p u, (L'.cons p = .claimed u ∨ L'.cons p = .taken u) →
      (g.L.cons p = .claimed u ∨ g.L.cons p = .taken u))
    {copied' : List (ℕ × T)} (hcv : ∀ e ∈ copied', (g.L.prod e.1).value? = some e.2)
    (hcm : ∀ p x, L'.Stored p x → (p, x) ∈ copied')
    (hdc : ∀ e ∈ delivered', ∃ c ∈ s.claims, c.1 = e.1 ∧ c.2.1 ≤ e.2.1 ∧ e.2.1 < c.2.1 + c.2.2)
    (hdel : ∀ e ∈ s.delivered, e ∈ delivered') :
    History cfg { s with copied := copied', delivered := delivered' } { g with L := L' } :=
  { h with
    log := hlog
    resv_cover := fun p x hx => h.resv_cover p x ((hval p).symm.trans hx)
    claim_owner := fun p u hp => h.claim_owner p u (hcell p u hp)
    copied_val := fun e he => (hval _).trans (hcv e he)
    copied_mem := hcm
    deliv_claim := hdc
    trace_write := fun e he src hop => by
      obtain ⟨hres, hsrc⟩ := h.trace_write e he src hop
      refine ⟨hres, hsrc.imp_right ?_⟩
      rintro ⟨a, ha, hsent⟩
      exact ⟨a, ha, fun j x hj => hpub _ x (hsent j x hj)⟩
    trace_read := fun e he cap hop => by
      obtain ⟨vs, b, hres, hlen, htook⟩ := h.trace_read e he cap hop
      exact ⟨vs, b, hres, hlen, htook.mono ⟨fun _ he => he, hdel⟩⟩ }

theorem History.copy (hw : g.L.WF) (h : History cfg s g) {q : ℕ} {v : T}
    (hq : g.L.prod q = .reserved t v) :
    History cfg { s with copied := s.copied ++ [(q, v)] } { g with L := g.L.copy t q v } := by
  have hstep : Ledger.Step t g.L (g.L.copy t q v) := .copy q v hq
  refine h.update (h.log.produce hw hstep rfl rfl rfl) (fun p => Ledger.copy_value? hq)
    (fun p x hx => hstep.published hw hx) (fun _ _ hc => hc) (fun e he => ?_)
    (fun p x hx => ?_) h.deliv_claim (fun _ he => he)
  · rcases List.mem_append.mp he with he | he
    · exact h.copied_val e he
    · rw [List.mem_singleton] at he
      subst he
      rw [hq]
      rfl
  · rcases Ledger.copy_stored hx with ⟨rfl, rfl⟩ | ⟨_, hx⟩
    · simp
    · exact List.mem_append_left _ (h.copied_mem p x hx)

theorem History.publish (hw : g.L.WF) (h : History cfg s g) {a n : ℕ}
    (hall : ∀ p, a ≤ p → p < a + n → ∃ v, g.L.prod p = .copied t v) :
    History cfg s { g with L := g.L.publish a n } := by
  have hstep : Ledger.Step t g.L (g.L.publish a n) := .publish a n fun p h1 h2 => by
    obtain ⟨v, hv⟩ := hall p h1 h2
    exact ⟨v, Or.inl hv⟩
  exact h.update (h.log.produce hw hstep rfl rfl rfl) (fun p => Ledger.publish_value? hall)
    (fun p x hx => hstep.published hw hx) (fun _ _ hc => hc) h.copied_val
    (fun p x hx => h.copied_mem p x (Ledger.publish_stored hall hx)) h.deliv_claim (fun _ he => he)

theorem History.take (h : History cfg s g) {q : ℕ} {v : T} (hq : g.L.cons q = .claimed t)
    (hv : g.L.prod q = .published v) :
    History cfg { s with delivered := s.delivered ++ [(t, q, v)] }
      { g with L := g.L.take t q } := by
  refine h.update (h.log.take hq hv) (fun p => rfl) (fun _ _ hx => hx) (fun p u hp => ?_)
    h.copied_val h.copied_mem (fun e he => ?_) (fun e he => List.mem_append_left _ he)
  · by_cases hpq : p = q
    · subst hpq
      left
      rw [Ledger.take_cons, update_self] at hp
      rcases hp with hp | hp
      · cases hp
      · injection hp with hp
        rw [hq, hp]
    · rwa [Ledger.take_cons, update_of_ne hpq] at hp
  · rcases List.mem_append.mp he with he | he
    · exact h.deliv_claim e he
    · rw [List.mem_singleton] at he
      subst he
      exact h.claim_owner q t (Or.inl hq)

theorem History.complete (h : History cfg s g) {a n : ℕ}
    (hall : ∀ p, a ≤ p → p < a + n → g.L.cons p = .taken t) :
    History cfg s { g with L := g.L.complete a n } := by
  refine h.update (h.log.complete hall) (fun p => rfl) (fun _ _ hx => hx) (fun p u hp => ?_)
    h.copied_val h.copied_mem h.deliv_claim (fun _ he => he)
  by_cases hin : a ≤ p ∧ p < a + n
  · rw [Ledger.complete_cons_in _ hin.1 hin.2] at hp
    rcases hp with hp | hp <;> exact absurd hp (by simp)
  · rwa [Ledger.complete_cons_out _ hin] at hp

/-- The history looks at the virtual blocks only through `counted`. -/
theorem History.vstat (h : History cfg s g)
    (hv : ∀ k v, vstat' k v = .counted ↔ g.vstat k v = .counted) :
    History cfg s { g with vstat := vstat' } :=
  { h with
    recyc_iff := fun k => by
      rw [h.recyc_iff k]
      exact forall_congr' fun v => imp_congr_right fun _ => (hv k v).symm }

/-! ## The producer's two steps -/

/-- Filling slot `o` of virtual block `v`. -/
theorem ok_copy (h : Inv cfg s g) {k v o : ℕ} {x : T} (ha : g.owner a = .chain k)
    (hv : v < cfg.nv) (ho : o < cfg.ns) (hq : g.L.prod (cfg.pos k v o) = .reserved t x) :
    Ok cfg t s g
      { s.modBlock a (·.setSlot v o x) with copied := s.copied ++ [(cfg.pos k v o, x)] }
      { g with L := g.L.copy t (cfg.pos k v o) x } := by
  have hlt := pos_lt_succ cfg (k := k) hv ho
  have hge : k * cfg.cap ≤ cfg.pos k v o := by
    unfold Config.pos
    omega
  have hold := h.content a k ha
  refine ok_block h ha (.copy _ x hq) rfl rfl ((s.heap a).setSlot v o x) rfl (fun p hp => ?_)
    (fun p _ => rfl) (fun _ _ _ => rfl) (fun _ hv => hv) (fun _ _ _ => Iff.rfl)
    (fun v' o' hv' ho' hne => h.finished k v' o' hv' ho' hne) (h.unfinished k) (h.unretired a k ha)
    ?_ (fun _ he => he) (h.hist.copy h.ledger hq)
  · rw [Ledger.copy_prod, update_of_ne]
    rintro rfl
    exact hp ⟨hge, hlt⟩
  · refine ⟨fun v' hv' => ?_, fun v' hv' => hold.consumed v' hv', hold.vblocks,
      fun v' o' x' hv' ho' hx => ?_⟩
    · show ((s.heap a).vblock v').produced = _
      rw [hold.produced v' hv']
      exact tally_congr fun p _ _ => (Ledger.copy_isPublished hq).symm
    · show update (s.heap a).slots v
        (update ((s.heap a).slots v) o (some x)) v' o' = some x'
      rcases Ledger.copy_stored hx with ⟨heq, rfl⟩ | ⟨hne, hx⟩
      · obtain ⟨_, rfl, rfl⟩ := pos_inj hv' ho' hv ho heq
        simp
      · rw [← hold.slots v' o' x' hv' ho' hx]
        by_cases hvv : v' = v
        · subst hvv
          have hoo : o' ≠ o := by
            rintro rfl
            exact hne rfl
          rw [update_self, update_of_ne hoo]
        · rw [update_of_ne hvv]

/-- Publishing the segment `[o, o + n)` of virtual block `v`. -/
theorem ok_publish (h : Inv cfg s g) {k v o n : ℕ} (ha : g.owner a = .chain k)
    (hv : v < cfg.nv) (ho : o + n ≤ cfg.ns)
    (hall : ∀ p, cfg.pos k v o ≤ p → p < cfg.pos k v o + n → ∃ x, g.L.prod p = .copied t x) :
    Ok cfg t s g (s.modBlock a (·.addProduced v n))
      { g with L := g.L.publish (cfg.pos k v o) n } := by
  have hold := h.content a k ha
  have hpos : cfg.pos k v 0 + o = cfg.pos k v o := cons_pos_add cfg k v o
  have hstep : Ledger.Step t g.L (g.L.publish (cfg.pos k v o) n) :=
    .publish _ n fun p h1 h2 => by
      obtain ⟨x, hx⟩ := hall p h1 h2
      exact ⟨x, Or.inl hx⟩
  have hin : ∀ p, cfg.pos k v o ≤ p → p < cfg.pos k v o + n →
      cfg.pos k v 0 ≤ p ∧ p < cfg.pos k v 0 + cfg.ns := fun p h1 h2 => ⟨by omega, by omega⟩
  refine ok_block h ha hstep rfl rfl ((s.heap a).addProduced v n) rfl (fun p hp => ?_)
    (fun p _ => rfl) (fun _ _ _ => rfl) (fun _ hv => hv) (fun _ _ _ => Iff.rfl)
    (fun v' o' hv' ho' hne => h.finished k v' o' hv' ho' hne) (h.unfinished k) (h.unretired a k ha)
    ?_ (fun _ he => he) (h.hist.publish h.ledger hall)
  · apply Ledger.publish_prod_out
    rintro ⟨h1, h2⟩
    obtain ⟨h3, h4⟩ := hin p h1 h2
    exact hp (window_in_block hv h3 h4)
  · refine ⟨fun v' hv' => ?_, fun v' hv' => ?_, hold.vblocks,
      fun v' o' x' hv' ho' hx => hold.slots v' o' x' hv' ho' (Ledger.publish_stored hall hx)⟩
    · by_cases hvv : v' = v
      · subst hvv
        have htally := tally_mark (f := fun p => (g.L.prod p).isPublished)
          (g := fun p => ((g.L.publish (cfg.pos k v' o) n).prod p).isPublished)
          (a := cfg.pos k v' 0) (n := cfg.ns) (b := cfg.pos k v' o) (m := n)
          (by omega) (by omega) (fun p h1 h2 => ?_) (fun p h1 h2 => ?_)
          (fun p _ _ hout => by rw [Ledger.publish_prod_out _ hout])
        · simp only [Block.addProduced, update_self]
          rw [hold.produced v' hv', htally]
        · obtain ⟨x, hx⟩ := hall p h1 h2
          simp [hx]
        · obtain ⟨x, hx⟩ := hall p h1 h2
          simp [Ledger.publish_prod_in _ h1 h2, hx]
      · simp only [Block.addProduced, update_of_ne hvv]
        rw [hold.produced v' hv']
        apply tally_congr
        intro p h1 h2
        rw [Ledger.publish_prod_out]
        rintro ⟨h3, h4⟩
        obtain ⟨h5, h6⟩ := hin p h3 h4
        exact hvv (window_inj hv' hv h1 h2 h5 h6).2
    · simp only [Ledger.publish_cons]
      rw [← hold.consumed v' hv']
      by_cases hvv : v' = v
      · subst hvv
        simp [Block.addProduced]
      · simp [Block.addProduced, update_of_ne hvv]

/-! ## The consumer's steps -/

/-- Moving the value of slot `o` of virtual block `v` out. -/
theorem ok_take (h : Inv cfg s g) {k v o : ℕ} {x : T} (ha : g.owner a = .chain k)
    (hv : v < cfg.nv) (ho : o < cfg.ns) (hq : g.L.cons (cfg.pos k v o) = .claimed t)
    (hx : g.L.prod (cfg.pos k v o) = .published x) :
    Ok cfg t s g { s with delivered := s.delivered ++ [(t, cfg.pos k v o, x)] }
      { g with L := g.L.take t (cfg.pos k v o) } := by
  have hlt := pos_lt_succ cfg (k := k) hv ho
  have hge : k * cfg.cap ≤ cfg.pos k v o := by
    unfold Config.pos
    omega
  have hold := h.content a k ha
  have hok := ok_block h ha (.take _ x hq hx) rfl rfl (s.heap a) rfl (fun p _ => rfl)
    (fun p hp => ?_) (fun _ _ _ => rfl) (fun _ hv => hv) (fun _ _ _ => Iff.rfl)
    (fun v' o' hv' ho' hne => ?_) (fun v' hv' hop => ?_) (h.unretired a k ha) ?_
    (fun e he => List.mem_append_left _ he) (h.hist.take hq hx)
  · rwa [update_eq_self] at hok
  · rw [Ledger.take_cons, update_of_ne]
    rintro rfl
    exact hp ⟨hge, hlt⟩
  · have hdone := h.finished k v' o' hv' ho' hne
    rw [Ledger.take_cons, update_of_ne]
    · exact hdone
    · intro heq
      simp [heq, hq] at hdone
  · obtain ⟨o', ho', hne⟩ := h.unfinished k v' hv' hop
    refine ⟨o', ho', fun hd => hne ?_⟩
    rwa [← Ledger.CCell.isDone_iff, Ledger.take_isDone hq, Ledger.CCell.isDone_iff] at hd
  · exact Content.congr (L := g.L) (fun p => rfl) (fun p => Ledger.take_isDone hq)
      (fun p x hx => hx) hold

/-- The completion state after virtual block `v` of block `k` moved on. -/
def setStat (f : ℕ → ℕ → VStat) (k v : ℕ) (x : VStat) : ℕ → ℕ → VStat :=
  update f k (update (f k) v x)

@[simp] theorem setStat_self (f : ℕ → ℕ → VStat) (k v : ℕ) (x : VStat) :
    setStat f k v x k v = x := by
  simp [setStat]

theorem setStat_other (f : ℕ → ℕ → VStat) (x : VStat)
    (h : ¬ (k' = k ∧ v' = v)) : setStat f k v x k' v' = f k' v' := by
  unfold setStat
  by_cases hk : k' = k
  · subst hk
    rw [update_self, update_of_ne]
    exact fun hv => h ⟨rfl, hv⟩
  · rw [update_of_ne hk]

/-- Completing the segment `[o, o + n)` of virtual block `v`; when this fills the
counter, `t` is the thread that has to count the virtual block. -/
theorem ok_complete (h : Inv cfg s g) {k v o n : ℕ} (ha : g.owner a = .chain k)
    (hv : v < cfg.nv) (ho : o + n ≤ cfg.ns) (hn : 0 < n)
    (hall : ∀ p, cfg.pos k v o ≤ p → p < cfg.pos k v o + n → g.L.cons p = .taken t)
    (hcase : (vstat' = g.vstat ∧ ((s.heap a).vblock v).consumed + n ≠ cfg.ns) ∨
      (vstat' = setStat g.vstat k v (.full t) ∧
        ((s.heap a).vblock v).consumed + n = cfg.ns)) :
    Ok cfg t s g (s.modBlock a (·.addConsumed v n))
      { g with L := g.L.complete (cfg.pos k v o) n, vstat := vstat' } := by
  have hold := h.content a k ha
  have hpos : cfg.pos k v 0 + o = cfg.pos k v o := cons_pos_add cfg k v o
  have hin : ∀ p, cfg.pos k v o ≤ p → p < cfg.pos k v o + n →
      cfg.pos k v 0 ≤ p ∧ p < cfg.pos k v 0 + cfg.ns := fun p h1 h2 => ⟨by omega, by omega⟩
  -- a taken position keeps its virtual block open
  have hopen : g.vstat k v = .opened := by
    by_contra hne
    have hdone := h.finished k v o hv (by omega) hne
    simp [hall _ (le_refl _) (by omega)] at hdone
  have hsame : ∀ k' v', ¬ (k' = k ∧ v' = v) → vstat' k' v' = g.vstat k' v' := by
    intro k' v' hne
    rcases hcase with ⟨rfl, _⟩ | ⟨rfl, _⟩
    · rfl
    · exact setStat_other _ _ hne
  have hcounted : ∀ k' v', vstat' k' v' = .counted ↔ g.vstat k' v' = .counted := by
    intro k' v'
    by_cases hkv : k' = k ∧ v' = v
    · obtain ⟨rfl, rfl⟩ := hkv
      rcases hcase with ⟨rfl, _⟩ | ⟨rfl, _⟩ <;> simp [hopen]
    · rw [hsame k' v' hkv]
  have htally := tally_mark (f := fun p => (g.L.cons p).isDone)
    (g := fun p => ((g.L.complete (cfg.pos k v o) n).cons p).isDone)
    (a := cfg.pos k v 0) (n := cfg.ns) (b := cfg.pos k v o) (m := n) (by omega) (by omega)
    (fun p h1 h2 => by simp [hall p h1 h2])
    (fun p h1 h2 => by simp [Ledger.complete_cons_in _ h1 h2])
    (fun p _ _ hout => by rw [Ledger.complete_cons_out _ hout])
  have hkeep : ∀ v' o', v' < cfg.nv → o' < cfg.ns → g.vstat k v' ≠ .opened →
      (g.L.complete (cfg.pos k v o) n).cons (cfg.pos k v' o') = .done := by
    intro v' o' hv' ho' hne
    have hdone := h.finished k v' o' hv' ho' hne
    by_cases hin' : cfg.pos k v o ≤ cfg.pos k v' o' ∧ cfg.pos k v' o' < cfg.pos k v o + n
    · exact Ledger.complete_cons_in _ hin'.1 hin'.2
    · rwa [Ledger.complete_cons_out _ hin']
  refine ok_block h ha (.complete _ n hall) rfl rfl ((s.heap a).addConsumed v n) rfl
    (fun p _ => rfl) (fun p hp => ?_)
    (fun k' v' hk => hsame k' v' fun hc => hk hc.1) (fun v' hv' => (hcounted k v').mpr hv')
    (fun u v' hu => ?_) (fun v' o' hv' ho' hne => ?_) (fun v' hv' hop => ?_) ?_ ?_ (fun _ he => he)
    { (h.hist.complete hall).vstat hcounted with }
  · apply Ledger.complete_cons_out
    rintro ⟨h1, h2⟩
    obtain ⟨h3, h4⟩ := hin p h1 h2
    exact hp (window_in_block hv h3 h4)
  · by_cases hvv : v' = v
    · subst hvv
      rcases hcase with ⟨rfl, _⟩ | ⟨rfl, _⟩
      · rfl
      · simp [hopen, Ne.symm hu]
    · rw [hsame k v' fun hc => hvv hc.2]
  · by_cases hvv : v' = v
    · subst hvv
      rcases hcase with ⟨rfl, _⟩ | ⟨_, hfull⟩
      · exact absurd hopen hne
      · -- the counter is full, so every position of the window is completed
        rw [hold.consumed v' hv, ← htally, tally_eq_iff] at hfull
        apply Ledger.CCell.isDone_iff.mp
        apply hfull
        · rw [← cons_pos_add cfg k v' o']
          omega
        · rw [← cons_pos_add cfg k v' o']
          omega
    · apply hkeep v' o' hv' ho'
      rwa [← hsame k v' fun hc => hvv hc.2]
  · by_cases hvv : v' = v
    · subst hvv
      rcases hcase with ⟨_, hpart⟩ | ⟨rfl, _⟩
      · -- the counter is not full, so some position of the window is left
        by_contra hno
        refine hpart ?_
        rw [hold.consumed v' hv, ← htally, tally_eq_iff]
        intro p h1 h2
        rw [Ledger.CCell.isDone_iff]
        by_contra hnd
        refine hno ⟨p - cfg.pos k v' 0, by omega, ?_⟩
        rwa [← cons_pos_add cfg k v' (p - cfg.pos k v' 0), Nat.add_sub_cancel' h1]
      · exact absurd hop (by simp)
    · rw [hsame k v' fun hc => hvv hc.2] at hop
      obtain ⟨o', ho', hne⟩ := h.unfinished k v' hv' hop
      refine ⟨o', ho', ?_⟩
      rw [Ledger.complete_cons_out]
      · exact hne
      · rintro ⟨h1, h2⟩
        obtain ⟨h3, h4⟩ := hin _ h1 h2
        have hpos' := cons_pos_add cfg k v' o'
        have hge : cfg.pos k v' 0 ≤ cfg.pos k v' o' := by omega
        exact hvv (window_inj hv' hv hge (by omega) h3 h4).2
  · obtain ⟨v', hv', hne⟩ := h.unretired a k ha
    exact ⟨v', hv', fun hc => hne ((hcounted k v').mp hc)⟩
  · refine ⟨fun v' hv' => ?_, fun v' hv' => ?_, ?_, fun v' o' x' hv' ho' hx =>
      hold.slots v' o' x' hv' ho' hx⟩
    · simp only [Ledger.complete_prod]
      rw [← hold.produced v' hv']
      by_cases hvv : v' = v
      · subst hvv
        simp [Block.addConsumed]
      · simp [Block.addConsumed, update_of_ne hvv]
    · by_cases hvv : v' = v
      · subst hvv
        simp only [Block.addConsumed, update_self]
        rw [hold.consumed v' hv', htally]
      · simp only [Block.addConsumed, update_of_ne hvv]
        rw [hold.consumed v' hv']
        apply tally_congr
        intro p h1 h2
        rw [Ledger.complete_cons_out]
        rintro ⟨h3, h4⟩
        obtain ⟨h5, h6⟩ := hin p h3 h4
        exact hvv (window_inj hv' hv h1 h2 h5 h6).2
    · show (s.heap a).consumedVblocks = _
      rw [hold.vblocks]
      apply tally_congr
      intro v' _ _
      apply Bool.eq_iff_iff.mpr
      rw [VStat.isCounted_iff, VStat.isCounted_iff]
      exact (hcounted k v').symm

/-- The counter `consumed_vblocks` after `t` has counted virtual block `v`. -/
theorem count_tally (h : Inv cfg s g) {k v : ℕ} (ha : g.owner a = .chain k)
    (hv : v < cfg.nv) (hf : g.vstat k v = .full t) :
    tally (fun v' => (setStat g.vstat k v .counted k v').isCounted) 0 cfg.nv
      = (s.heap a).consumedVblocks + 1 := by
  rw [(h.content a k ha).vblocks]
  apply tally_mark (b := v) (m := 1) (by omega) (by omega)
  · intro v' h1 h2
    obtain rfl : v' = v := by omega
    simp [hf, VStat.isCounted]
  · intro v' h1 h2
    obtain rfl : v' = v := by omega
    simp
  · intro v' _ _ hne
    rw [setStat_other]
    rintro ⟨_, rfl⟩
    exact hne ⟨le_refl _, by omega⟩

/-- After this count all virtual blocks are counted exactly when the counter is full. -/
theorem count_all (h : Inv cfg s g) {k v : ℕ} (ha : g.owner a = .chain k)
    (hv : v < cfg.nv) (hf : g.vstat k v = .full t) :
    (∀ v', v' < cfg.nv → setStat g.vstat k v .counted k v' = .counted) ↔
      (s.heap a).consumedVblocks + 1 = cfg.nv := by
  rw [← count_tally h ha hv hf, tally_eq_iff]
  constructor
  · intro hc v' _ hv'
    exact VStat.isCounted_iff.mpr (hc v' (by omega))
  · intro hc v' hv'
    exact VStat.isCounted_iff.mp (hc v' (Nat.zero_le _) (by omega))

/-- Counting a virtual block concerns no other thread's. -/
theorem setStat_counted_full (hf : g.vstat k v = .full t) (hu : u ≠ t) :
    setStat g.vstat k v .counted k' v' = .full u ↔ g.vstat k' v' = .full u := by
  by_cases hkv : k' = k ∧ v' = v
  · obtain ⟨rfl, rfl⟩ := hkv
    simp [hf, Ne.symm hu]
  · rw [setStat_other _ _ hkv]

/-- A counted virtual block was not open. -/
theorem setStat_counted_opened (hf : g.vstat k v = .full t) :
    setStat g.vstat k v .counted k' v' = .opened ↔ g.vstat k' v' = .opened := by
  by_cases hkv : k' = k ∧ v' = v
  · obtain ⟨rfl, rfl⟩ := hkv
    simp [hf]
  · rw [setStat_other _ _ hkv]

theorem setStat_counted_mono (hc : g.vstat k' v' = .counted) :
    setStat g.vstat k v .counted k' v' = .counted := by
  by_cases hkv : k' = k ∧ v' = v
  · obtain ⟨rfl, rfl⟩ := hkv
    simp
  · rwa [setStat_other _ _ hkv]

/-- The recycled tokens after a count: the last one of a block adds its token. -/
theorem History.count (h : Inv cfg s g) {k v : ℕ} (ha : g.owner a = .chain k)
    (hv : v < cfg.nv) (hf : g.vstat k v = .full t) {recycled' : List ℕ}
    (hcase : ((s.heap a).consumedVblocks + 1 ≠ cfg.nv ∧ recycled' = s.recycled) ∨
      ((s.heap a).consumedVblocks + 1 = cfg.nv ∧ recycled' = s.recycled ++ [k])) :
    History cfg { s with recycled := recycled' }
      { g with vstat := setStat g.vstat k v .counted } := by
  have hall := count_all h ha hv hf
  have hrecycled : k ∉ s.recycled := fun hk => by
    have := (h.hist.recyc_iff k).mp hk v hv
    simp [hf] at this
  have hsame : ∀ k', k' ≠ k → ((∀ v', v' < cfg.nv → setStat g.vstat k v .counted k' v' = .counted) ↔
      ∀ v', v' < cfg.nv → g.vstat k' v' = .counted) := fun k' hk => by
    apply forall_congr'
    intro v'
    rw [setStat_other]
    exact fun hc => hk hc.1
  rcases hcase with ⟨hne, rfl⟩ | ⟨heq, rfl⟩
  · refine { h.hist with recyc_iff := fun k' => ?_ }
    by_cases hk : k' = k
    · subst hk
      rw [hall]
      exact ⟨fun hc => absurd hc hrecycled, fun hc => absurd hc hne⟩
    · rw [hsame k' hk]
      exact h.hist.recyc_iff k'
  · refine { h.hist with recyc_nodup := ?_, recyc_iff := fun k' => ?_ }
    · rw [List.nodup_append']
      refine ⟨h.hist.recyc_nodup, by simp, ?_⟩
      intro x hx hxk
      rw [List.mem_singleton] at hxk
      exact hrecycled (hxk ▸ hx)
    · rw [List.mem_append, List.mem_singleton]
      by_cases hk : k' = k
      · subst hk
        rw [hall]
        exact ⟨fun _ => heq, fun _ => Or.inr rfl⟩
      · rw [hsame k' hk, ← h.hist.recyc_iff k']
        simp [hk]

/-- Counting a completed virtual block that is not the last one of its block. -/
theorem ok_count (h : Inv cfg s g) {k v : ℕ} (ha : g.owner a = .chain k)
    (hv : v < cfg.nv) (hf : g.vstat k v = .full t)
    (hmore : (s.heap a).consumedVblocks + 1 ≠ cfg.nv) :
    Ok cfg t s g
      (s.modBlock a (fun b => { b with consumedVblocks := b.consumedVblocks + 1 }))
      { g with vstat := setStat g.vstat k v .counted } := by
  have hold := h.content a k ha
  refine ok_block h ha .skip rfl rfl
    { s.heap a with consumedVblocks := (s.heap a).consumedVblocks + 1 } rfl (fun _ _ => rfl)
    (fun _ _ => rfl) (fun k' v' hk => setStat_other _ _ fun hc => hk hc.1)
    (fun v' hv' => setStat_counted_mono hv') (fun u v' hu => setStat_counted_full hf hu)
    (fun v' o' hv' ho' hne => ?_) (fun v' hv' hop => ?_) ?_ ?_ (fun _ he => he)
    { History.count h ha hv hf (Or.inl ⟨hmore, rfl⟩) with }
  · exact h.finished k v' o' hv' ho' fun hc => hne ((setStat_counted_opened hf).mpr hc)
  · exact h.unfinished k v' hv' ((setStat_counted_opened hf).mp hop)
  · by_contra hno
    refine hmore ((count_all h ha hv hf).mp fun v' hv' => ?_)
    by_contra hne
    exact hno ⟨v', hv', hne⟩
  · exact ⟨fun v' hv' => hold.produced v' hv', fun v' hv' => hold.consumed v' hv',
      (count_tally h ha hv hf).symm, fun v' o' x' hv' ho' hx => hold.slots v' o' x' hv' ho' hx⟩

/-- **Counting the last virtual block** takes the block out of the chain and hands
its token to `FreeList::recycle`. -/
theorem ok_retire (h : Inv cfg s g) {k v : ℕ} (ha : g.owner a = .chain k)
    (hv : v < cfg.nv) (hf : g.vstat k v = .full t)
    (hlast : (s.heap a).consumedVblocks + 1 = cfg.nv) :
    Ok cfg t s g { s with recycled := s.recycled ++ [k] }
      { g with
        owner := update g.owner a (.held t), vstat := setStat g.vstat k v .counted } := by
  have hall := (count_all h ha hv hf).mpr hlast
  have hne : ∀ b, b ≠ a → update g.owner a (.held t) b = g.owner b :=
    fun b hb => update_of_ne hb _ _
  have hold : ∀ b k', update g.owner a (.held t) b = .chain k' →
      g.owner b = .chain k' ∧ k' ≠ k := by
    intro b k' hb
    by_cases hba : b = a
    · subst hba
      simp at hb
    · rw [hne b hba] at hb
      refine ⟨hb, ?_⟩
      rintro rfl
      have h1 := h.chain.place b k' hb
      exact hba (Option.some.inj (h1.symm.trans (h.chain.place a k' ha)))
  have hvst : ∀ k' v', k' ≠ k → setStat g.vstat k v .counted k' v' = g.vstat k' v' :=
    fun k' v' hk => setStat_other _ _ fun hc => hk hc.1
  refine ⟨{ h with
    chain := h.chain.congr fun b k' hb => ⟨(hold b k' hb).1, rfl⟩
    live := fun k' b hb => ?_
    freed := fun b hb => ?_
    used := fun b hb hc => h.used b hb (owner_of_update (by simp) hc).2
    content := fun b k' hb => ?_
    finished := fun k' v' o hv' ho hop => ?_
    unfinished := fun k' v' hv' hop => h.unfinished k' v' hv' ((setStat_counted_opened hf).mp hop)
    unretired := fun b k' hb => ?_
    cache_mem := fun b => ?_
    hist := { History.count h ha hv hf (Or.inr ⟨hlast, rfl⟩) with } }, fun u hu => ?_⟩
  · show update g.owner a (.held t) b = _ ∨
      ∀ v', v' < cfg.nv → setStat g.vstat k v .counted k' v' = .counted
    rcases h.live k' b hb with h1 | h1
    · by_cases hba : b = a
      · subst hba
        rw [ha] at h1
        obtain rfl : k = k' := by simpa using h1
        exact Or.inr hall
      · rw [hne b hba]
        exact Or.inl h1
    · exact Or.inr fun v' hv' => setStat_counted_mono (h1 v' hv')
  · have hfree := h.freed b hb
    have hba : b ≠ a := by
      rintro rfl
      simp [ha] at hfree
    exact (hne b hba).trans hfree
  · obtain ⟨hb', hk⟩ := hold b k' hb
    exact (h.content b k' hb').other hk (fun _ _ => rfl) (fun _ _ => rfl) fun v' => hvst k' v' hk
  · exact h.finished k' v' o hv' ho fun hc => hop ((setStat_counted_opened hf).mpr hc)
  · obtain ⟨hb', hk⟩ := hold b k' hb
    obtain ⟨v', hv', hcnt⟩ := h.unretired b k' hb'
    refine ⟨v', hv', ?_⟩
    show setStat g.vstat k v .counted k' v' ≠ .counted
    rwa [hvst k' v' hk]
  · show update g.owner a (.held t) b = .pooled ↔ b ∈ g.cache
    rw [← h.cache_mem b]
    by_cases hba : b = a
    · subst hba
      simp [ha]
    · rw [hne b hba]
  · refine { Rely.refl u s g with
      held := fun b hb => ⟨?_, rfl⟩
      keeps := fun b hb => (owner_of_update (held_ne hu) hb).2
      vstat := fun k' v' => setStat_counted_full hf hu }
    have hba : b ≠ a := by
      rintro rfl
      simp [ha] at hb
    exact (hne b hba).trans hb

end V8
