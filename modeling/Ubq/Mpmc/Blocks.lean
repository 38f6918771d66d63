/-
# Steps on a live block

A producer writes a slot; a consumer reads a slot and counts a segment.  Each is
one step of the ledger together with one write to the block, and `ok_block` is
the rule they share: the change stays within the positions of the block, and its
new content agrees with the new ledger.  When the last segment of a block is
counted, the block leaves the chain in the same step (`Stays.leaves`).
-/
import Ubq.Mpmc.Moves

namespace Mpmc

open Function

variable {T : Type*} {cfg : Config} {t u : Tid} {s s' : Shared T} {g g' : Ghost T}

/-! ## Positions of blocks -/

/-- A position lies in one block only. -/
theorem block_inj (cfg : Config) {k k' p : ℕ} (h : k * cfg.bl ≤ p ∧ p < k * cfg.bl + cfg.bl)
    (h' : k' * cfg.bl ≤ p ∧ p < k' * cfg.bl + cfg.bl) : k = k' := by
  have h1 : k < k' + 1 := token_lt_of_mul_lt cfg.bl (by rw [succ_mul]; omega)
  have h2 : k' < k + 1 := token_lt_of_mul_lt cfg.bl (by rw [succ_mul]; omega)
  omega

/-- The position of a slot determines its block and its index. -/
theorem slot_inj {k k' i i' : ℕ} (hi : i < cfg.bl) (hi' : i' < cfg.bl)
    (h : k * cfg.bl + i = k' * cfg.bl + i') : k = k' ∧ i = i' := by
  obtain rfl : k = k' := block_inj cfg (p := k * cfg.bl + i) ⟨by omega, by omega⟩
    ⟨by omega, by omega⟩
  exact ⟨rfl, by omega⟩

/-! ## The rule -/

/-- The content of a block does not depend on the positions of another one. -/
theorem Content.other {L L' : Ledger Tid (Option T)} {k k' : ℕ} {b : Block T} (hk : k' ≠ k)
    (hprod : ∀ p, ¬ (k * cfg.bl ≤ p ∧ p < k * cfg.bl + cfg.bl) → L'.prod p = L.prod p)
    (hcons : ∀ p, ¬ (k * cfg.bl ≤ p ∧ p < k * cfg.bl + cfg.bl) → L'.cons p = L.cons p)
    (h : Content cfg L k' b) : Content cfg L' k' b := by
  have hout : ∀ p, k' * cfg.bl ≤ p → p < k' * cfg.bl + cfg.bl →
      ¬ (k * cfg.bl ≤ p ∧ p < k * cfg.bl + cfg.bl) := fun p h1 h2 hc =>
    hk (block_inj cfg ⟨h1, h2⟩ hc)
  have hslot : ∀ i, i < cfg.bl →
      ¬ (k * cfg.bl ≤ k' * cfg.bl + i ∧ k' * cfg.bl + i < k * cfg.bl + cfg.bl) :=
    fun i hi => hout _ (by omega) (by omega)
  refine ⟨?_, fun i x hi hx => ?_, fun i hi hx => ?_, fun i hi hx => ?_⟩
  · rw [h.consumed]
    exact tally_congr fun p h1 h2 => by rw [hcons p (hout p h1 h2)]
  · exact h.filled i x hi (hprod _ (hslot i hi) ▸ hx)
  · exact h.blank i hi (hprod _ (hslot i hi) ▸ hx)
  · exact h.spent i hi (hcons _ (hslot i hi) ▸ hx)

/-- Completed positions stay completed. -/
theorem Step.done {L L' : Ledger Tid (Option T)} (hw : L.WF) (h : Ledger.Step t L L') {p : ℕ}
    (hp : L.cons p = .done) : L'.cons p = .done :=
  (h.frame hw (Nat.succ_ne_self t)).done p hp

/-- A step on the block `a` with token `k`: it stays in the chain, not completely
consumed, or leaves it with all its positions completed. -/
inductive Stays (cfg : Config) (t : Tid) (g : Ghost T) (a : Addr) (k : ℕ)
    (L' : Ledger Tid (Option T)) (b' : Block T) : (Addr → Own Tid) → Prop
  | stays (h : b'.consumed < cfg.bl) : Stays cfg t g a k L' b' g.owner
  | leaves (h : ∀ i, i < cfg.bl → L'.cons (k * cfg.bl + i) = .done) :
      Stays cfg t g a k L' b' (update g.owner a (.held t))

section Stays

variable {a : Addr} {k : ℕ} {L' : Ledger Tid (Option T)} {b' : Block T} {owner' : Addr → Own Tid}

section

variable (h : Stays cfg t g a k L' b' owner')

include h

theorem Stays.other {b : Addr} (hb : b ≠ a) : owner' b = g.owner b := by
  cases h with
  | stays => rfl
  | leaves => exact update_of_ne hb _ _

/-- Nothing changes for owners other than the chain and `t`. -/
theorem Stays.iff (ha : g.owner a = .chain k)
    {x : Own Tid} (hx : x ≠ .chain k) (hxt : x ≠ .held t) (b : Addr) :
    owner' b = x ↔ g.owner b = x := by
  cases h with
  | stays => rfl
  | leaves => exact update_owner_iff ha (by simp [hx.symm, hxt.symm]) b

theorem Stays.chain {b : Addr} {k' : ℕ}
    (hb : owner' b = .chain k') : g.owner b = .chain k' := by
  cases h with
  | stays => exact hb
  | leaves =>
    by_cases hba : b = a
    · subst hba
      simp at hb
    · rwa [update_of_ne hba] at hb

theorem Stays.self {k' : ℕ} (hb : owner' a = .chain k') : b'.consumed < cfg.bl := by
  cases h with
  | stays h => exact h
  | leaves => simp at hb

theorem Stays.live (ha : g.owner a = .chain k) :
    owner' a = .chain k ∨ ∀ i, i < cfg.bl → L'.cons (k * cfg.bl + i) = .done := by
  cases h with
  | stays => exact Or.inl ha
  | leaves h => exact Or.inr h

end

end Stays

/-- **The rule for a step on the live block `a` with token `k`.** -/
theorem ok_block (h : Inv cfg s g) {a : Addr} {k : ℕ} (ha : g.owner a = .chain k)
    {L' : Ledger Tid (Option T)} (hstep : Ledger.Step t g.L L') (hpp : L'.ppos = g.L.ppos)
    (hcp : L'.cpos = g.L.cpos) (hval : ∀ p, (L'.prod p).value? = (g.L.prod p).value?)
    (b' : Block T) (hnext : b'.next = (s.heap a).next) (hrun : b'.run = (s.heap a).run)
    (hprod : ∀ p, ¬ (k * cfg.bl ≤ p ∧ p < k * cfg.bl + cfg.bl) → L'.prod p = g.L.prod p)
    (hcons : ∀ p, ¬ (k * cfg.bl ≤ p ∧ p < k * cfg.bl + cfg.bl) → L'.cons p = g.L.cons p)
    (hc : Content cfg L' k b') {log' : Log Tid (Option T)} (hgrow : s.log.Grows log')
    (hlog : log'.Agrees L') {owner' : Addr → Own Tid} (hs : Stays cfg t g a k L' b' owner') :
    Ok cfg t s g { s with heap := update s.heap a b', log := log' }
      { g with L := L', owner := owner' } := by
  have hother : ∀ a', a' ≠ a → update s.heap a b' a' = s.heap a' :=
    fun a' ha' => update_of_ne ha' _ _
  have hself : update s.heap a b' a = b' := update_self _ _ _
  have htoken : ∀ a' k', g.owner a' = .chain k' → a' ≠ a → k' ≠ k := by
    rintro a' k' ha' hne rfl
    exact hne (Option.some.inj ((h.chain.place a' k' ha').symm.trans (h.chain.place a k' ha)))
  have hlink : ∀ a', (update s.heap a b' a').next = (s.heap a').next := by
    intro a'
    by_cases haa : a' = a
    · subst haa
      rw [hself, hnext]
    · rw [hother a' haa]
  refine ⟨{ h with
    ledger := hstep.wf h.ledger
    present := fun p => ?_
    cpos_le := ?_
    chain := h.chain.congr fun a' k' ha' => ⟨hs.chain ha', hlink a'⟩
    live := fun k' a' ha' => ?_
    pages := ?_
    content := fun a' k' ha' => ?_
    unfinished := fun a' k' ha' => ?_
    pool_iff := fun a' => (hs.iff ha (by simp) (by simp) a').trans (h.pool_iff a')
    pool_clean := fun a' ha' => ?_
    fresh := fun hf => ?_
    phead := ?_
    cpos_pk := ?_
    chead := ?_
    log := hlog
    trace := fun e he => ?_ }, fun u hu => ?_⟩
  · show (L'.prod p).value? ≠ some none
    rw [hval]
    exact h.present p
  · show L'.cpos ≤ L'.ppos
    rw [hpp, hcp]
    exact h.cpos_le
  · rcases h.live k' a' ha' with h1 | h1
    · by_cases haa : a' = a
      · subst haa
        obtain rfl : k = k' := by
          rw [ha] at h1
          simpa using h1
        exact hs.live ha
      · exact Or.inl ((hs.other haa).trans h1)
    · exact Or.inr fun i hi => Step.done h.ledger hstep (h1 i hi)
  · show Pages s.arena (fun b => (update s.heap a b' b).run) owner'
    rw [update_run hrun]
    exact h.pages.congr fun b => hs.iff ha (by simp) (by simp) b
  · have ha'' := hs.chain ha'
    show Content cfg L' k' (update s.heap a b' a')
    by_cases haa : a' = a
    · subst haa
      obtain rfl : k' = k := by
        rw [ha''] at ha
        simpa using ha
      rwa [hself]
    · rw [hother a' haa]
      exact (h.content a' k' ha'').other (htoken a' k' ha'' haa) hprod hcons
  · show (update s.heap a b' a').consumed < cfg.bl
    by_cases haa : a' = a
    · subst haa
      rw [hself]
      exact hs.self ha'
    · rw [hother a' haa]
      exact h.unfinished a' k' (hs.chain ha')
  · show (update s.heap a b' a').Clean ∧ (update s.heap a b' a').next = none
    have haa : a' ≠ a := by
      rintro rfl
      simp [(h.pool_iff a').mpr ha'] at ha
    rw [hother a' haa]
    exact h.pool_clean a' ha'
  · obtain ⟨h1, h2, h3⟩ := h.fresh hf
    exact ⟨h1, hpp.trans h2, h3⟩
  · have hp := h.phead
    unfold ProdHead at hp ⊢
    dsimp only
    simp only [hpp]
    exact hp
  · show L'.cpos ≤ _
    rw [hcp]
    exact h.cpos_pk
  · have hch := h.chead
    unfold ConsHead at hch ⊢
    dsimp only
    simp only [hcp]
    exact hch
  · exact (h.trace e he).mono hgrow fun p v hv => hstep.published h.ledger hv
  · refine { Rely.refl u s g with
      ledger := hstep.frame h.ledger hu
      covers := fun _ _ hcov => hstep.covers hu hcov
      log := hgrow
      held := fun a' ha' => ⟨(hs.iff ha (by simp) (by simp [hu]) a').mpr ha', hother a' ?_⟩
      keeps := fun a' ha' => (hs.iff ha (by simp) (by simp [hu]) a').mp ha'
      pown := fun _ => ⟨rfl, rfl, hpp⟩
      cpos := hcp.symm.le }
    rintro rfl
    simp [ha] at ha'

/-! ## The three steps -/

/-- Writing slot `i`. -/
theorem ok_write (h : Inv cfg s g) {a : Addr} {k i : ℕ} {x : Option T} (ha : g.owner a = .chain k)
    (hi : i < cfg.bl) (hx : g.L.prod (k * cfg.bl + i) = .reserved t x) :
    Ok cfg t s g (s.modBlock a fun b => b.setSlot i ((b.slots i).put x))
      { g with L := g.L.publish (k * cfg.bl + i) 1 } := by
  have hall : ∀ p, k * cfg.bl + i ≤ p → p < k * cfg.bl + i + 1 →
      ∃ v, g.L.prod p = .copied t v ∨ g.L.prod p = .reserved t v := by
    intro p h1 h2
    obtain rfl : p = k * cfg.bl + i := by omega
    exact ⟨x, Or.inr hx⟩
  have hself : (g.L.publish (k * cfg.bl + i) 1).prod (k * cfg.bl + i) = .published x := by
    rw [Ledger.publish_prod_in _ (by omega) (by omega), hx]
    rfl
  have hout : ∀ p, p ≠ k * cfg.bl + i →
      (g.L.publish (k * cfg.bl + i) 1).prod p = g.L.prod p :=
    fun p hp => Ledger.publish_prod_out _ (by omega)
  have hold := h.content a k ha
  refine ok_block h ha (.publish _ _ hall) rfl rfl (fun p => ?_)
    ((s.heap a).setSlot i (((s.heap a).slots i).put x)) rfl rfl
    (fun p hp => hout p (by omega)) (fun _ _ => rfl) ?_ (Log.Grows.refl _)
    (h.log.produce h.ledger (.publish _ _ hall) rfl rfl rfl) (.stays (h.unfinished a k ha))
  · by_cases hp : p = k * cfg.bl + i
    · subst hp
      rw [hself, hx]
      rfl
    · rw [hout p hp]
  · have hset : ∀ j, j ≠ i → (((s.heap a).setSlot i (((s.heap a).slots i).put x)).slots j)
        = (s.heap a).slots j := fun j hj => update_of_ne hj _ _
    have hseti : (((s.heap a).setSlot i (((s.heap a).slots i).put x)).slots i)
        = ((s.heap a).slots i).put x := update_self _ _ _
    refine ⟨hold.consumed, fun j y hj hy => ?_, fun j hj hy => ?_, fun j hj hy => ?_⟩
    · by_cases hji : j = i
      · subst hji
        rw [hself] at hy
        obtain rfl : x = y := by simpa using hy
        rw [hseti]
        cases x with
        | none => rfl
        | some v => exact ⟨rfl, rfl⟩
      · rw [hset j hji]
        exact hold.filled j y hj (hout (k * cfg.bl + j) (by omega) ▸ hy)
    · by_cases hji : j = i
      · subst hji
        exact absurd hself (hy x)
      · rw [hset j hji]
        exact hold.blank j hj (hout (k * cfg.bl + j) (by omega) ▸ hy)
    · by_cases hji : j = i
      · -- a position that is taken or done was published before
        subst hji
        exfalso
        have hpub : ∃ v, g.L.prod (k * cfg.bl + j) = .published v := by
          rcases hy with ⟨w, hw⟩ | hw
          · exact h.ledger.taken_published _ w hw
          · exact h.ledger.done_published _ hw
        obtain ⟨v, hv⟩ := hpub
        simp [hx] at hv
      · rw [hset j hji]
        exact hold.spent j hj hy

/-- Reading slot `i`. -/
theorem ok_take (h : Inv cfg s g) {a : Addr} {k i : ℕ} {v : T} (ha : g.owner a = .chain k)
    (hi : i < cfg.bl) (hc : g.L.cons (k * cfg.bl + i) = .claimed t)
    (hv : g.L.prod (k * cfg.bl + i) = .published (some v)) :
    Ok cfg t s g
      { s.modBlock a (·.setSlot i { (s.heap a).slots i with read := true }) with
        log := s.log.deliver t (k * cfg.bl + i) (some v) }
      { g with L := g.L.take t (k * cfg.bl + i) } := by
  have hold := h.content a k ha
  have hout : ∀ p, p ≠ k * cfg.bl + i → (g.L.take t (k * cfg.bl + i)).cons p = g.L.cons p :=
    fun p hp => update_of_ne hp _ _
  refine ok_block h ha (.take _ _ hc hv) rfl rfl (fun _ => rfl)
    ((s.heap a).setSlot i { (s.heap a).slots i with read := true }) rfl rfl (fun _ _ => rfl)
    (fun p hp => hout p (by omega)) ?_ (Log.grows_deliver _ _ _ _) (h.log.take hc hv)
    (.stays (h.unfinished a k ha))
  have hset : ∀ j, j ≠ i → ((s.heap a).setSlot i { (s.heap a).slots i with read := true }).slots j
      = (s.heap a).slots j := fun j hj => update_of_ne hj _ _
  have hseti : ((s.heap a).setSlot i { (s.heap a).slots i with read := true }).slots i
      = { (s.heap a).slots i with read := true } := update_self _ _ _
  refine ⟨?_, fun j y hj hy => ?_, fun j hj hy => ?_, fun j hj hy => ?_⟩
  · show (s.heap a).consumed = _
    rw [hold.consumed]
    exact tally_congr fun p _ _ => (Ledger.take_isDone hc).symm
  · by_cases hji : j = i
    · subst hji
      rw [hseti]
      have := hold.filled j y hj hy
      cases y <;> exact this
    · rw [hset j hji]
      exact hold.filled j y hj hy
  · by_cases hji : j = i
    · subst hji
      exact absurd hv (hy _)
    · rw [hset j hji]
      exact hold.blank j hj hy
  · by_cases hji : j = i
    · subst hji
      rw [hseti]
      exact fun _ => rfl
    · rw [hset j hji]
      rw [hout _ (by omega)] at hy
      exact hold.spent j hj hy

/-- The block after the segment of `n` slots up to slot `e` has been counted. -/
theorem content_complete (h : Inv cfg s g) {a : Addr} {k e n : ℕ} (ha : g.owner a = .chain k)
    (hne : n ≤ e) (he : e ≤ cfg.bl) (htk : g.L.Taken t (k * cfg.bl + (e - n)) n) :
    Content cfg (g.L.complete (k * cfg.bl + (e - n)) n) k ((s.heap a).addConsumed n) := by
  have hold := h.content a k ha
  refine ⟨?_, hold.filled, hold.blank, fun j hj hy => hold.spent j hj ?_⟩
  · show (s.heap a).consumed + n = _
    rw [hold.consumed]
    symm
    refine tally_mark (b := k * cfg.bl + (e - n)) (m := n) (by omega) (by omega)
      (fun p h1 h2 => ?_) (fun p h1 h2 => ?_) (fun p _ _ hp => ?_)
    · rw [htk.cell h1 h2]
      rfl
    · rw [Ledger.complete_cons_in _ h1 h2]
      rfl
    · rw [Ledger.complete_cons_out _ hp]
  · by_cases hin : k * cfg.bl + (e - n) ≤ k * cfg.bl + j ∧
        k * cfg.bl + j < k * cfg.bl + (e - n) + n
    · exact Or.inl ⟨t, htk.cell hin.1 hin.2⟩
    · rwa [Ledger.complete_cons_out _ hin] at hy

/-- **Counting** the segment of `n` slots up to slot `e`. -/
theorem ok_complete (h : Inv cfg s g) {a : Addr} {k e n : ℕ} (ha : g.owner a = .chain k)
    (hne : n ≤ e) (he : e ≤ cfg.bl) (htk : g.L.Taken t (k * cfg.bl + (e - n)) n)
    {owner' : Addr → Own Tid}
    (hs : Stays cfg t g a k (g.L.complete (k * cfg.bl + (e - n)) n) ((s.heap a).addConsumed n)
      owner') :
    Ok cfg t s g (s.modBlock a (·.addConsumed n))
      { g with L := g.L.complete (k * cfg.bl + (e - n)) n, owner := owner' } :=
  ok_block h ha (.complete _ _ fun _ => htk.cell) rfl rfl (fun _ => rfl)
    ((s.heap a).addConsumed n) rfl rfl (fun _ _ => rfl)
    (fun p hp => Ledger.complete_cons_out _ (by omega)) (content_complete h ha hne he htk)
    (Log.Grows.refl _) (h.log.complete fun _ => htk.cell) hs

end Mpmc
