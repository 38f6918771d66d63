/-
# Steps on the two heads

What the invariant says about the words of `phead` and `chead`, and the steps
that change them: the two stores of the initialisation, a reservation, linking
blocks, the store that ends a producer's boundary, a claim, and the store that
ends a consumer's boundary.
-/
import Ubq.Mpmc.Blocks

namespace Mpmc

open Function

variable {T : Type*} {cfg : Config} {t u : Tid} {s s' : Shared T} {g g' : Ghost T}
variable {k : ℕ} {b : Block T} {L : Ledger Tid (Option T)} {f : Bool}

/-! ## Reading the heads -/

section

variable (h : Inv cfg s g)

include h

theorem phead_block : s.phead.block = s.linked[g.pk]? := by
  have hp := h.phead
  unfold ProdHead at hp
  split at hp
  · obtain ⟨off, f, _, heq, _⟩ := hp
    rw [heq]
  · rw [hp.1]

theorem phead_index_le : s.phead.index ≤ cfg.bl := by
  have hp := h.phead
  unfold ProdHead at hp
  split at hp
  · obtain ⟨off, f, hoff, heq, _⟩ := hp
    rw [heq]
    exact hoff.le
  · rw [hp.1]

theorem phead_le_ppos : g.pk * cfg.bl + s.phead.index ≤ g.L.ppos := by
  have hp := h.phead
  unfold ProdHead at hp
  split at hp
  · obtain ⟨off, f, hoff, heq, hpos, _⟩ := hp
    rw [heq, hpos]
  · rw [hp.1]
    exact hp.2

/-- `phead` with a slot to give away. -/
theorem phead_open (hi : s.phead.index < cfg.bl) :
    g.pown = none ∧ g.L.ppos = g.pk * cfg.bl + s.phead.index ∧
      (s.phead.hasNext = true → g.pk + 1 < s.linked.length) := by
  have hp := h.phead
  unfold ProdHead at hp
  split at hp
  · rename_i hown
    obtain ⟨off, f, hoff, heq, hpos, hf⟩ := hp
    rw [heq]
    exact ⟨hown, hpos, hf⟩
  · simp [hp.1] at hi

theorem phead_zero_iff : s.phead = Head.zero ↔ g.stage = .fresh := by
  constructor
  · intro hz
    by_contra hst
    have hb := phead_block h
    rw [hz, List.getElem?_eq_getElem (h.pk_lt hst)] at hb
    simp [Head.zero] at hb
  · intro hst
    have hlk := h.fresh_iff.mp hst
    obtain ⟨hpk, hpp, hown⟩ := h.fresh hst
    have hp := h.phead
    unfold ProdHead at hp
    rw [hown] at hp
    obtain ⟨off, f, hoff, heq, hpos, hf⟩ := hp
    have hoff0 : off = 0 := by omega
    have hf0 : f = false := by
      cases f with
      | false => rfl
      | true =>
        have := hf rfl
        simp [hlk] at this
    rw [heq, hlk, hoff0, hf0]
    rfl

theorem chead_zero_iff : s.chead = Head.zero ↔ g.stage ≠ .ready := by
  have hc := h.chead
  unfold ConsHead at hc
  cases hst : g.stage with
  | ready =>
    have hlt : g.ck < s.linked.length :=
      Nat.lt_of_le_of_lt h.ck_le (h.pk_lt (by rw [hst]; simp))
    have hsome : s.chead.block = some s.linked[g.ck] := by
      rw [hst] at hc
      simp only at hc
      split at hc
      · obtain ⟨off, f, _, heq, _⟩ := hc
        rw [heq]
        exact List.getElem?_eq_getElem hlt
      · obtain ⟨f, heq, _⟩ := hc
        rw [heq]
        exact List.getElem?_eq_getElem hlt
    constructor
    · intro hz
      rw [hz] at hsome
      simp [Head.zero] at hsome
    · exact fun hne => absurd rfl hne
  | fresh =>
    rw [hst] at hc
    simpa using hc.1
  | opening v =>
    rw [hst] at hc
    simpa using hc.1

theorem chead_block (hst : g.stage = .ready) : s.chead.block = s.linked[g.ck]? := by
  have hc := h.chead
  unfold ConsHead at hc
  rw [hst] at hc
  simp only at hc
  split at hc
  · obtain ⟨off, f, _, heq, _⟩ := hc
    rw [heq]
  · obtain ⟨f, heq, _⟩ := hc
    rw [heq]

theorem chead_index_le (hst : g.stage = .ready) :
    s.chead.index ≤ cfg.bl ∧ g.L.cpos = g.ck * cfg.bl + s.chead.index := by
  have hc := h.chead
  unfold ConsHead at hc
  rw [hst] at hc
  simp only at hc
  split at hc
  · obtain ⟨off, f, hoff, heq, hpos, _⟩ := hc
    rw [heq]
    exact ⟨hoff.le, hpos⟩
  · obtain ⟨f, heq, hpos⟩ := hc
    rw [heq]
    exact ⟨le_refl _, hpos⟩

/-- `chead` with a slot to give away. -/
theorem chead_open (hst : g.stage = .ready) (hi : s.chead.index < cfg.bl) :
    g.cown = none ∧ (s.chead.hasNext = true → g.ck < g.pk) := by
  have hc := h.chead
  unfold ConsHead at hc
  rw [hst] at hc
  simp only at hc
  split at hc
  · rename_i hown
    obtain ⟨off, f, hoff, heq, hpos, hf⟩ := hc
    rw [heq]
    exact ⟨hown, hf⟩
  · obtain ⟨f, heq, _⟩ := hc
    simp [heq] at hi

/-- Inside a consumer's boundary. -/
theorem cpos_locked (hst : g.stage = .ready) (hown : g.cown = some t) :
    g.L.cpos = g.ck * cfg.bl + cfg.bl := by
  have hc := h.chead
  unfold ConsHead at hc
  rw [hst, hown] at hc
  obtain ⟨f, _, hpos⟩ := hc
  exact hpos

/-- The block of an open `phead` is live, and its token is the last one. -/
theorem phead_place (hst : g.stage ≠ .fresh) (hi : s.phead.index < cfg.bl) :
    place cfg s s.phead = g.L.ppos := by
  obtain ⟨_, hpos, _⟩ := phead_open h hi
  obtain ⟨a, hget⟩ : ∃ a, s.linked[g.pk]? = some a :=
    ⟨_, List.getElem?_eq_getElem (h.pk_lt hst)⟩
  have hlive : g.owner a = .chain g.pk := by
    apply live_of_not_published h hget hi
    intro x hx
    have := h.ledger.reserved_lt (p := g.pk * cfg.bl + s.phead.index) (by simp [hx])
    omega
  unfold place
  rw [phead_block h, hget]
  show tokenOf s.linked a * cfg.bl + s.phead.index = g.L.ppos
  rw [h.chain.tokenOf hlive, hpos]

end

/-! ## Blocks under other ledgers -/

/-- The content of a block depends on the ledger only through these marks. -/
theorem Content.congr {L L' : Ledger Tid (Option T)}
    (h : Content cfg L k b) (hpub : ∀ p x, L'.prod p = .published x ↔ L.prod p = .published x)
    (hdone : ∀ p, (L'.cons p).isDone = (L.cons p).isDone)
    (hused : ∀ p, ((∃ t, L'.cons p = .taken t) ∨ L'.cons p = .done) →
      (∃ t, L.cons p = .taken t) ∨ L.cons p = .done) : Content cfg L' k b where
  consumed := h.consumed.trans (tally_congr fun p _ _ => (hdone p).symm)
  filled := fun i x hi hx => h.filled i x hi ((hpub _ x).mp hx)
  blank := fun i hi hx => h.blank i hi fun x hc => hx x ((hpub _ x).mpr hc)
  spent := fun i hi hx => h.spent i hi (hused _ hx)

theorem Content.reserve (hw : L.WF)
    (h : Content cfg L k b) (t : Tid) (vs : List (Option T)) : Content cfg (L.reserve t vs) k b :=
  h.congr (fun _ _ => hw.reserve_published) (fun _ => rfl) (fun _ hx => hx)

theorem Content.claim (hw : L.WF)
    (h : Content cfg L k b) (t : Tid) (n : ℕ) : Content cfg (L.claim t n) k b := by
  refine h.congr (fun _ _ => Iff.rfl) (fun _ => hw.claim_isDone) (fun p hx => ?_)
  rcases hw.claim_cons t n p with h1 | ⟨_, h1⟩
  · rwa [h1] at hx
  · rw [h1] at hx
    rcases hx with ⟨_, hx⟩ | hx <;> exact absurd hx (by simp)

/-- A clean block fits a token none of whose positions is published. -/
theorem Content.of_clean (hw : L.WF)
    (hb : b.Clean) (hp : ∀ i, i < cfg.bl → ∀ x, L.prod (k * cfg.bl + i) ≠ .published x) :
    Content cfg L k b := by
  refine ⟨?_, fun i x hi hx => absurd hx (hp i hi x), fun i hi _ => hb.2 i, fun i hi hx => ?_⟩
  · rw [hb.1]
    symm
    apply tally_eq_zero
    intro p h1 h2
    by_contra hd
    obtain ⟨x, hx⟩ := hw.done_published p (Ledger.CCell.isDone_iff.mp (by simpa using hd))
    exact hp (p - k * cfg.bl) (by omega) x (by rwa [Nat.add_sub_cancel' h1])
  · intro hc
    simp [hb.2 i] at hc

/-! ## Initialisation -/

/-- Storing the first block in `phead`. -/
theorem ok_init (h : Inv cfg s g) (hst : g.stage = .fresh) {root : Addr}
    (ho : Owned t s g [root]) (hl : Linked s [root]) :
    Ok cfg t s g
      { s with phead := Head.fromPtr (some root), linked := s.linked ++ [root] }
      { g with owner := update g.owner root (.chain 0), stage := .opening t } := by
  have hlk := h.fresh_iff.mp hst
  obtain ⟨hpk, hpp, hown⟩ := h.fresh hst
  obtain ⟨hroot, hclean⟩ := ho.2 root (by simp)
  have hnone : ∀ a k, g.owner a ≠ .chain k := by
    intro a k ha
    have := h.chain.place a k ha
    simp [hlk] at this
  have hcases : ∀ a k, update g.owner root (.chain 0) a = .chain k → a = root ∧ k = 0 := by
    intro a k ha
    by_cases har : a = root
    · subst har
      rw [update_self] at ha
      exact ⟨rfl, by simpa using ha.symm⟩
    · rw [update_of_ne har] at ha
      exact absurd ha (hnone a k)
  have hnext : s.next root = none := hl.2
  have hlk' : s.linked ++ [root] = [root] := by rw [hlk]; rfl
  refine ⟨{ h with
    chain := ?_
    live := fun k a ha => ?_
    pages := h.pages.congr fun a => update_owner_iff hroot (by simp) a
    content := fun a k ha => ?_
    unfinished := fun a k ha => ?_
    pool_iff := fun a => (update_owner_iff hroot (by simp) a).trans (h.pool_iff a)
    fresh_iff := by simp
    fresh := nofun
    pk_lt := fun _ => ?_
    phead := ?_
    chead := ?_ }, fun u hu => ?_⟩
  · rw [hlk']
    exact ChainWF.start hnone hnext
  · have ha' : (s.linked ++ [root])[k]? = some a := ha
    rw [hlk'] at ha'
    obtain rfl : k = 0 := by
      have := (List.getElem?_eq_some_iff.mp ha').1
      simpa using this
    obtain rfl : root = a := by simpa using ha'
    exact Or.inl (update_self _ _ _)
  · obtain ⟨rfl, rfl⟩ := hcases a k ha
    refine Content.of_clean h.ledger hclean fun i hi x hx => ?_
    have := h.ledger.reserved_lt (p := 0 * cfg.bl + i) (by rw [hx]; simp)
    omega
  · obtain ⟨rfl, rfl⟩ := hcases a k ha
    rw [hclean.1]
    exact cfg.bl_pos
  · rw [hlk', hpk]
    simp
  · rw [hown]
    refine ⟨0, false, cfg.bl_pos, ?_, ?_, nofun⟩
    · rw [hlk', hpk]
      rfl
    · rw [hpp, hpk]
      omega
  · have hc := h.chead
    unfold ConsHead at hc ⊢
    rwa [hst] at hc
  · refine { Rely.refl u s g with
      linked := List.prefix_append _ _
      held := fun a ha => ⟨(update_owner_iff hroot (by simp [Ne.symm hu]) a).mpr ha, rfl⟩
      keeps := fun a ha => (update_owner_iff hroot (by simp [Ne.symm hu]) a).mp ha
      opening := ?_
      started := fun hc => absurd hst hc
      ready := fun hc => absurd (hst.symm.trans hc) (by simp)
      pown := fun hc => absurd (hown.symm.trans hc) (by simp) }
    rw [hst]
    simp [Ne.symm hu]

/-- Storing the first block in `chead`. -/
theorem ok_open (h : Inv cfg s g) (hst : g.stage = .opening t) {root : Addr}
    (hroot : s.linked[0]? = some root) :
    Ok cfg t s g { s with chead := Head.fromPtr (some root) } { g with stage := .ready } := by
  have hc := h.chead
  unfold ConsHead at hc
  rw [hst] at hc
  obtain ⟨_, hck, hcp, hcown⟩ := hc
  have hne : g.stage ≠ .fresh := by rw [hst]; simp
  refine ⟨{ h with
    fresh_iff := ?_
    fresh := nofun
    pk_lt := fun _ => h.pk_lt hne
    chead := ?_ }, fun u hu => ?_⟩
  · have := h.fresh_iff
    rw [hst] at this
    simpa using this
  · rw [hcown]
    refine ⟨0, false, cfg.bl_pos, ?_, ?_, nofun⟩
    · rw [hck, hroot]
      rfl
    · rw [hcp, hck]
      omega
  · refine { Rely.refl u s g with
      opening := ?_
      started := fun _ => by simp
      ready := fun _ => rfl }
    rw [hst]
    simp [Ne.symm hu]

/-! ## The producer head -/

/-- **Reserving** the positions from `ppos` on for the items. -/
theorem ok_reserve (h : Inv cfg s g) (hst : g.stage ≠ .fresh) (hi : s.phead.index < cfg.bl)
    (items : List (Option T)) (hsome : none ∉ items) {pown' : Option Tid}
    (hpown : (s.phead.index + items.length < cfg.bl ∧ pown' = none) ∨
      (cfg.bl ≤ s.phead.index + items.length ∧ pown' = some t)) :
    Ok cfg t s g
      { s with
        phead := ⟨s.phead.block, min (s.phead.index + items.length) cfg.bl, false⟩
        log := s.log.reserve t g.L.ppos items }
      { g with L := g.L.reserve t items, pown := pown' } := by
  obtain ⟨hown, hpos, _⟩ := phead_open h hi
  have hblock := phead_block h
  have hstep : Ledger.Step t g.L (g.L.reserve t items) := .reserve items
  refine ⟨{ h with
    ledger := hstep.wf h.ledger
    present := fun p => ?_
    cpos_le := ?_
    content := fun a k ha => (h.content a k ha).reserve h.ledger t items
    fresh := fun hc => absurd hc hst
    phead := ?_
    log := h.log.reserve h.ledger t items
    trace := fun e he => (h.trace e he).mono (Log.grows_reserve _ _ _ _)
      fun p v hv => hstep.published h.ledger hv }, fun u hu => ?_⟩
  · by_cases hlt : p < g.L.ppos
    · rw [Ledger.reserve_prod_old _ _ _ hlt]
      exact h.present p
    · by_cases hlt' : p < g.L.ppos + items.length
      · obtain ⟨j, rfl⟩ : ∃ j, p = g.L.ppos + j := ⟨p - g.L.ppos, by omega⟩
        have hj : items[j]? = some items[j] := List.getElem?_eq_getElem (by omega)
        rw [Ledger.reserve_prod_new _ _ _ hj]
        intro hc
        have hnone : items[j] = none := by simpa using hc
        exact hsome (hnone ▸ List.getElem_mem _)
      · rw [Ledger.reserve_prod_beyond _ _ _ (by omega)]
        exact h.present p
  · have hle := h.cpos_le
    show g.L.cpos ≤ g.L.ppos + items.length
    omega
  · rcases hpown with ⟨hlt, rfl⟩ | ⟨hge, rfl⟩
    · refine ⟨s.phead.index + items.length, false, hlt, ?_, ?_, nofun⟩
      · rw [hblock, Nat.min_eq_left hlt.le]
      · show g.L.ppos + items.length = _
        rw [hpos, Nat.add_assoc]
    · refine ⟨?_, ?_⟩
      · rw [hblock, Nat.min_eq_right hge]
      · show _ ≤ g.L.ppos + items.length
        rw [hpos]
        show g.pk * cfg.bl + cfg.bl ≤ _
        omega
  · refine { Rely.refl u s g with
      ledger := hstep.frame h.ledger hu
      covers := fun _ _ hcov => hstep.covers hu hcov
      log := Log.grows_reserve _ _ _ _
      pown := fun hc => absurd (hown.symm.trans hc) (by simp)
      pown_iff := ?_ }
    rw [hown]
    rcases hpown with ⟨_, rfl⟩ | ⟨_, rfl⟩ <;> simp [Ne.symm hu]

/-- **Linking** private blocks behind the last block. -/
theorem ok_link (h : Inv cfg s g) (hown : g.pown = some t) (hst : g.stage ≠ .fresh)
    {root : List Addr} {z : Addr} (ho : Owned t s g root) (hl : Linked s root)
    (hz : s.linked[s.linked.length - 1]? = some z)
    (hzown : g.owner z = .chain (s.linked.length - 1))
    (hun : ∀ p, s.linked.length * cfg.bl ≤ p → ∀ x, g.L.prod p ≠ .published x) :
    Ok cfg t s g { s.modBlock z (·.setNext root.head?) with linked := s.linked ++ root }
      { g with owner := chainOwner g.owner s.linked.length root } := by
  have hzr : z ∉ root := ho.ne_chain hzown
  have hkeep : ∀ k, k < s.linked.length → (s.linked ++ root)[k]? = s.linked[k]? :=
    fun k hk => List.getElem?_append_left hk
  have hheap : ∀ a, a ≠ z → update s.heap z ((s.heap z).setNext root.head?) a = s.heap a :=
    fun a ha => update_of_ne ha _ _
  have hpk := h.pk_lt hst
  -- an owner outside the chain and outside `root` is the old one
  have hother : ∀ a x, (∀ k, x ≠ .chain k) → x ≠ .held t →
      (chainOwner g.owner s.linked.length root a = x ↔ g.owner a = x) := by
    intro a x hx hxt
    by_cases har : a ∈ root
    · rw [chainOwner_of_mem har, (ho.2 a har).1]
      exact ⟨fun hc => absurd hc.symm (hx _), fun hc => absurd hc.symm hxt⟩
    · rw [chainOwner_of_notMem har]
  refine ⟨{ h with
    chain := ?_
    live := fun k a ha => ?_
    pages := ?_
    content := fun a k ha => ?_
    unfinished := fun a k ha => ?_
    pool_iff := fun a => (hother a .pooled (by simp) (by simp)).trans (h.pool_iff a)
    pool_clean := fun a ha => ?_
    fresh_iff := ?_
    pk_lt := fun _ => ?_
    phead := ?_
    chead := ?_
    trace := fun e he => (h.trace e he).mono (Log.Grows.refl _) fun _ _ hv => hv },
    fun u hu => ?_⟩
  · show ChainWF (s.linked ++ root) _ (s.modBlock z (·.setNext root.head?)).next
    rw [modBlock_next]
    exact h.chain.extend ho.1 (fun a ha => (ho.2 a ha).1) hl hz hzown
  · have ha' : (s.linked ++ root)[k]? = some a := ha
    by_cases hk : k < s.linked.length
    · rw [hkeep k hk] at ha'
      rcases h.live k a ha' with h1 | h1
      · left
        show chainOwner _ _ _ a = _
        rwa [chainOwner_of_notMem (ho.ne_chain h1)]
      · exact Or.inr h1
    · rw [List.getElem?_append_right (by omega)] at ha'
      left
      show chainOwner _ _ _ a = _
      rw [chainOwner_of_mem (List.mem_of_getElem? ha')]
      have hlt := (List.getElem?_eq_some_iff.mp ha').1
      have hget : root[k - s.linked.length] = a := (List.getElem?_eq_some_iff.mp ha').2
      have hidx : root.idxOf a = k - s.linked.length := by
        rw [← hget]
        exact ho.1.idxOf_getElem _ hlt
      rw [hidx]
      congr 1
      omega
  · have hrun : ((s.heap z).setNext root.head?).run = (s.heap z).run := rfl
    show Pages s.arena (fun b => (update s.heap z ((s.heap z).setNext root.head?) b).run) _
    rw [update_run hrun]
    exact h.pages.congr fun a => hother a .free (by simp) (by simp)
  · show Content cfg g.L k (update s.heap z ((s.heap z).setNext root.head?) a)
    have ha' : chainOwner g.owner s.linked.length root a = .chain k := ha
    by_cases har : a ∈ root
    · rw [chainOwner_of_mem har] at ha'
      obtain rfl : s.linked.length + root.idxOf a = k := by simpa using ha'
      rw [hheap a (fun hc => hzr (hc ▸ har))]
      refine Content.of_clean h.ledger (ho.2 a har).2 fun i hi => hun _ ?_
      rw [Nat.add_mul]
      omega
    · rw [chainOwner_of_notMem har] at ha'
      have hc := h.content a k ha'
      by_cases haz : a = z
      · subst haz
        rw [update_self]
        exact ⟨hc.consumed, hc.filled, hc.blank, hc.spent⟩
      · rwa [hheap a haz]
  · show (update s.heap z ((s.heap z).setNext root.head?) a).consumed < cfg.bl
    have ha' : chainOwner g.owner s.linked.length root a = .chain k := ha
    by_cases har : a ∈ root
    · rw [hheap a (fun hc => hzr (hc ▸ har)), (ho.2 a har).2.1]
      exact cfg.bl_pos
    · rw [chainOwner_of_notMem har] at ha'
      have hlt := h.unfinished a k ha'
      by_cases haz : a = z
      · subst haz
        rwa [update_self]
      · rwa [hheap a haz]
  · have hne : a ≠ z := by
      rintro rfl
      simp [(h.pool_iff a).mpr ha] at hzown
    show (update s.heap z _ a).Clean ∧ (update s.heap z _ a).next = none
    rw [hheap a hne]
    exact h.pool_clean a ha
  · show g.stage = .fresh ↔ s.linked ++ root = []
    have hne : s.linked ≠ [] := fun hc => hst (h.fresh_iff.mpr hc)
    simp [hst, hne]
  · show g.pk < (s.linked ++ root).length
    rw [List.length_append]
    omega
  · have hp := h.phead
    unfold ProdHead at hp ⊢
    dsimp only
    rw [hown] at hp ⊢
    refine ⟨?_, hp.2⟩
    show s.phead = ⟨(s.linked ++ root)[g.pk]?, _, _⟩
    rw [hkeep _ hpk]
    exact hp.1
  · have hc := h.chead
    have hck : g.ck < s.linked.length := Nat.lt_of_le_of_lt h.ck_le hpk
    unfold ConsHead at hc ⊢
    dsimp only
    simp only [hkeep _ hck]
    exact hc
  · refine { Rely.refl u s g with
      linked := List.prefix_append _ _
      held := fun a ha => ⟨(hother a _ (by simp) (by simp [hu])).mpr ha, hheap a ?_⟩
      keeps := fun a ha => (hother a _ (by simp) (by simp [hu])).mp ha
      pown := fun hc => absurd hc (not_mine hown hu) }
    rintro rfl
    simp [ha] at hzown

/-- The store that ends a producer's boundary. -/
theorem ok_pstore (h : Inv cfg s g) (hown : g.pown = some t) (hst : g.stage ≠ .fresh)
    {n off : ℕ} (hpk : g.pk ≤ n) (hn : n < s.linked.length) (hoff : off < cfg.bl)
    (hpos : g.L.ppos = n * cfg.bl + off) (hf : f = true → n + 1 < s.linked.length) :
    Ok cfg t s g { s with phead := ⟨s.linked[n]?, off, f⟩ } { g with pk := n, pown := none } := by
  have hmul : g.pk * cfg.bl ≤ n * cfg.bl := Nat.mul_le_mul_right _ hpk
  refine ⟨{ h with
    fresh := fun hc => absurd hc hst
    pk_lt := fun _ => hn
    phead := ⟨off, f, hoff, rfl, hpos, hf⟩
    ck_le := h.ck_le.trans hpk
    cpos_pk := ?_
    chead := ?_ }, fun u hu => ?_⟩
  · have := h.cpos_pk
    show g.L.cpos ≤ n * cfg.bl + cfg.bl
    omega
  · have hc := h.chead
    unfold ConsHead at hc ⊢
    split
    · rename_i hr
      rw [hr] at hc
      simp only at hc
      split
      · rename_i hco
        rw [hco] at hc
        obtain ⟨o, b, h1, h2, h3, h4⟩ := hc
        exact ⟨o, b, h1, h2, h3, fun hb => Nat.lt_of_lt_of_le (h4 hb) hpk⟩
      · rename_i v hco
        rwa [hco] at hc
    · rename_i hr
      split at hc
      · exact absurd (by assumption) hr
      · exact hc
  · exact { Rely.refl u s g with
      pk := hpk
      pown := fun hc => absurd hc (not_mine hown hu)
      pown_iff := iff_of_false (by simp) (not_mine hown hu) }

/-! ## The consumer head -/

/-- Moving `chead` on by `n` positions, which `t` claims. -/
theorem ok_chead (h : Inv cfg s g) (hfree : ∀ u, u ≠ t → g.cown ≠ some u) {n ck' : ℕ}
    {chead' : Head} {cown' : Option Tid} (hcown : ∀ u, u ≠ t → cown' ≠ some u) (hck : g.ck ≤ ck')
    (hpk : ck' ≤ g.pk) (hpp : g.L.cpos + n ≤ g.L.ppos)
    (hend : g.L.cpos + n ≤ g.pk * cfg.bl + cfg.bl)
    (hhead : ConsHead cfg { s with chead := chead', log := s.log.claim t g.L.cpos n }
      { g with L := g.L.claim t n, ck := ck', cown := cown' }) :
    Ok cfg t s g { s with chead := chead', log := s.log.claim t g.L.cpos n }
      { g with L := g.L.claim t n, ck := ck', cown := cown' } := by
  have hstep : Ledger.Step t g.L (g.L.claim t n) := .claim _
  refine ⟨{ h with
    ledger := hstep.wf h.ledger
    cpos_le := hpp
    live := fun k a ha => ?_
    content := fun a k ha => (h.content a k ha).claim h.ledger t _
    ck_le := hpk
    cpos_pk := hend
    chead := hhead
    log := h.log.claim h.ledger t _
    trace := fun e he => (h.trace e he).mono (Log.grows_claim _ _ _ _) fun _ _ hv => hv },
    fun u hu => { Rely.refl u s g with
      ledger := hstep.frame h.ledger hu
      covers := fun _ _ hcov => hstep.covers hu hcov
      log := Log.grows_claim _ _ _ _
      ck := hck
      cpos := Nat.le_add_right _ _
      cown := fun hc => absurd hc (hfree u hu)
      cown_iff := iff_of_false (hcown u hu) (hfree u hu) }⟩
  exact (h.live k a ha).imp_right fun hd i hi => Step.done h.ledger hstep (hd i hi)

/-- **Claiming** slots of the block of `chead`. -/
theorem ok_claim (h : Inv cfg s g) (hst : g.stage = .ready) (hi : s.chead.index < cfg.bl)
    {off : ℕ} (hlt : s.chead.index ≤ off) (hoff : off ≤ cfg.bl)
    (hpp : g.ck * cfg.bl + off ≤ g.L.ppos) (hf : f = true → g.ck < g.pk) {cown' : Option Tid}
    (hcown : (off < cfg.bl ∧ cown' = none) ∨ (off = cfg.bl ∧ cown' = some t)) :
    Ok cfg t s g
      { s with
        chead := ⟨s.chead.block, off, f⟩
        log := s.log.claim t g.L.cpos (off - s.chead.index) }
      { g with L := g.L.claim t (off - s.chead.index), cown := cown' } := by
  obtain ⟨hown, _⟩ := chead_open h hst hi
  obtain ⟨_, hpos⟩ := chead_index_le h hst
  have hmul : g.ck * cfg.bl ≤ g.pk * cfg.bl := Nat.mul_le_mul_right _ h.ck_le
  have hnew : g.L.cpos + (off - s.chead.index) = g.ck * cfg.bl + off := by omega
  refine ok_chead h (fun u _ => by simp [hown]) (fun u hu => ?_) le_rfl h.ck_le (by omega)
    (by omega) ?_
  · rcases hcown with ⟨_, rfl⟩ | ⟨_, rfl⟩ <;> simp [Ne.symm hu]
  · rw [chead_block h hst]
    unfold ConsHead
    rw [hst]
    rcases hcown with ⟨hlt', rfl⟩ | ⟨rfl, rfl⟩
    · exact ⟨off, f, hlt', rfl, hnew, hf⟩
    · exact ⟨f, rfl, hnew⟩

/-- The store that ends a consumer's boundary. -/
theorem ok_settle (h : Inv cfg s g) (hst : g.stage = .ready) (hown : g.cown = some t)
    {n off : ℕ} (hck : g.ck ≤ n) (hn : n ≤ g.pk) (hoff : off < cfg.bl)
    (hle : g.L.cpos ≤ n * cfg.bl + off) (hpp : n * cfg.bl + off ≤ g.L.ppos)
    (hf : f = true → n < g.pk) :
    Ok cfg t s g
      { s with
        chead := ⟨s.linked[n]?, off, f⟩
        log := s.log.claim t g.L.cpos (n * cfg.bl + off - g.L.cpos) }
      { g with L := g.L.claim t (n * cfg.bl + off - g.L.cpos), ck := n, cown := none } := by
  have hmul : n * cfg.bl ≤ g.pk * cfg.bl := Nat.mul_le_mul_right _ hn
  have hnew : g.L.cpos + (n * cfg.bl + off - g.L.cpos) = n * cfg.bl + off := by omega
  refine ok_chead h (fun u => not_mine hown) (fun u _ => by simp) hck hn (by omega) (by omega) ?_
  unfold ConsHead
  rw [hst]
  exact ⟨off, f, hoff, rfl, hnew, hf⟩

end Mpmc
