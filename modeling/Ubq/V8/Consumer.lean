/-
# The steps of `read_into`

One lemma for each program counter of `read_into` and `advance_consumer` whose
step touches shared memory or needs an argument.  The two places where the
protocol earns its keep are `rProduced_ok` and `rPending_ok`: a consumer leaves
the waiting loop only when every slot of its segment is published.
-/
import Ubq.V8.Producer

namespace V8

open Function

variable {T : Type*} {cfg : Config} {t u : Tid} {s s' : Shared T} {g g' : Ghost T}
variable {r : Read T} {next blk : Option Addr} {newIndex : ℕ}

/-! ## Reading the head -/

theorem csnap_load (h : Inv cfg s g) {index : ℕ} (hi : index ≤ s.consumerIndex) :
    CSnap s g index s.consumerBlock := by
  obtain ⟨j, _, hj, hblk⟩ := h.cblock
  refine ⟨hi, ?_, fun _ hown => ?_⟩
  · rw [hblk, List.getElem?_eq_getElem hj]
    simp
  · have hc := h.chead
    unfold ConsHead at hc
    rw [hown] at hc
    obtain ⟨_, _, _, _, _, _, hblk', _⟩ := hc
    exact hblk'

/-- With the flag set the whole rest of the block may be claimed. -/
theorem newIndex_flag {cap index : ℕ} (hcap : 0 < cap) (hslot : OnSlot cfg index)
    (hflag : index % 2 = 1) :
    NewIndex cfg g cap index (reserveIndex cfg (index / 2 / cfg.stride)
      (index / 2 % cfg.stride / cfg.ns) (index / 2 % cfg.stride % cfg.ns) cap (index % 2)) := by
  unfold OnSlot at hslot
  rw [reserveIndex_eq, hflag]
  exact ⟨_, 1, by omega, rfl, by omega, by omega, by omega, Or.inl ⟨hflag, rfl⟩⟩

/-- Without the flag the claim is clamped to what `producer.index` shows. -/
theorem newIndex_clamp (h : Inv cfg s g) {cap index : ℕ} (hcap : 0 < cap)
    (hslot : OnSlot cfg index) (hflag : index % 2 = 0) (hle : index ≤ s.consumerIndex)
    (hne : index / 2 ≠ s.producerIndex / 2) :
    NewIndex cfg g cap index (clampIndex cfg (reserveIndex cfg (index / 2 / cfg.stride)
      (index / 2 % cfg.stride / cfg.ns) (index / 2 % cfg.stride % cfg.ns) cap (index % 2))
      (index / 2 / cfg.stride) (s.producerIndex / 2)) := by
  unfold OnSlot at hslot
  have hcp := cidx_le_pidx h
  have hstride := cfg.cap_lt_stride
  obtain ⟨po, hpidx, hpo, hppos, _⟩ := pidx_split h
  obtain ⟨hsplit, _⟩ := ridx_split cfg (index / 2)
  have hlt : index / 2 < s.producerIndex / 2 := by omega
  rw [reserveIndex_eq]
  unfold clampIndex NewIndex
  have htok : s.producerIndex / 2 / cfg.stride = g.pk := by
    rw [hpidx, ridx_div_stride cfg (by omega)]
  rw [htok]
  by_cases hsame : index / 2 / cfg.stride = g.pk
  · rw [if_pos hsame]
    rw [hsame] at hsplit ⊢
    refine ⟨min (min (index / 2 % cfg.stride + cap) cfg.cap) po, 0, by omega, ?_, by omega,
      by omega, by omega, Or.inr ⟨hflag, by omega, fun hc => absurd hc (by omega)⟩⟩
    rw [hpidx]
    unfold Config.word
    omega
  · rw [if_neg hsame]
    have hless : index / 2 / cfg.stride < g.pk := by
      by_contra hc
      have hover : cfg.stride * g.pk + po
          < cfg.stride * (index / 2 / cfg.stride) + index / 2 % cfg.stride :=
        ridx_lt_of_token_lt cfg (by omega) (by omega)
      omega
    have hmul := token_mul_le cfg hless
    refine ⟨min (index / 2 % cfg.stride + cap) cfg.cap, 1, by omega, ?_, by omega, by omega,
      by omega, Or.inr ⟨hflag, by omega, fun _ => hless⟩⟩
    unfold Config.word
    omega

/-! ## The claim -/

/-- **The successful compare-exchange on `consumer.index`.** -/
theorem claimed_ok (h : Inv cfg s g) (hu : Unlocked t g) {cap index newIndex : ℕ}
    {block : Option Addr} (hk : Keeps t g []) (hsnap : CSnap s g index block)
    (hslot : OnSlot cfg index) (hnew : NewIndex cfg g cap index newIndex)
    (heq : s.consumerIndex = index) :
    StepOk cfg t s g (claimed cfg t s cap index block newIndex) := by
  subst heq
  obtain ⟨hown, off, f, hoff, hf, hidx, hpos, hblk, hflag⟩ := chead_onSlot h hslot
  have hblock : block = s.linked[g.ck]? := hsnap.2.2 rfl hown
  have hstride := cfg.cap_lt_stride
  have hckpk := h.ck_le
  have hlen := h.pk_lt
  have hdiv : s.consumerIndex / 2 = cfg.stride * g.ck + off := by rw [hidx, word_div_two cfg hf]
  have htok : s.consumerIndex / 2 / cfg.stride = g.ck := by
    rw [hdiv, ridx_div_stride cfg (by omega)]
  have hoffeq : s.consumerIndex / 2 % cfg.stride = off := by
    rw [hdiv, Nat.mul_add_mod, Nat.mod_eq_of_lt (by omega)]
  have hmod : s.consumerIndex % 2 = f := by rw [hidx, word_mod_two cfg hf]
  obtain ⟨off', f', hf', rfl, hlt, hle, hreq, hcase⟩ := hnew
  rw [htok] at hcase ⊢
  rw [hoffeq] at hlt hreq
  rw [hmod] at hcase
  obtain ⟨po, _, _, hppos, _⟩ := pidx_split h
  have hflag' : f' = 1 → g.ck < g.pk := by
    intro hone
    rcases hcase with ⟨h1, _⟩ | ⟨_, _, h3⟩
    · exact hflag h1
    · exact h3 hone
  have hbound : g.ck * cfg.cap + off' ≤ g.L.ppos := by
    rcases hcase with ⟨h1, _⟩ | ⟨_, h2, _⟩
    · have := token_mul_le cfg (hflag h1)
      omega
    · exact h2
  have hpkb : g.ck * cfg.cap + off' ≤ g.pk * cfg.cap + cfg.cap := by
    have := Nat.mul_le_mul_right cfg.cap hckpk
    omega
  have hdec : decodeIndex (s.consumerIndex / 2) cfg.ns cfg.nv
      = (g.ck, off / cfg.ns, off % cfg.ns) := by
    rw [hdiv, decodeIndex_eq cfg (by omega)]
  have hstart : g.ck * cfg.cap + (off / cfg.ns * cfg.ns + off % cfg.ns) = g.L.cpos := by
    rw [cfg.vblock_offset, hpos]
  have hposeq : cfg.pos g.ck (off / cfg.ns) (off % cfg.ns) = g.L.cpos := by
    rw [cfg.pos_div_mod, hpos]
  have hn : cfg.stride * g.ck + off' - s.consumerIndex / 2 = off' - off := by
    rw [hdiv]
    omega
  have hgrow : s.consumerIndex < cfg.word g.ck off' f' := by
    rw [hidx]
    unfold Config.word
    omega
  have hat : At cfg s g.ck block (off / cfg.ns) (off % cfg.ns) := hblock ▸ at_slot (by omega) hoff
  have hholds : (g.L.claim t (off' - off)).Holds t
      (cfg.pos g.ck (off / cfg.ns) (off % cfg.ns)) (off' - off) := by
    rw [hposeq]
    exact Ledger.holds_claim g.L t _
  have hcov : (g.L.claim t (off' - off)).Covers t
      (cfg.pos g.ck (off / cfg.ns) (off % cfg.ns)) (off' - off) := by
    rw [hposeq]
    exact hu.covers.claim _
  unfold claimed
  rw [hdec]
  simp only [hn, hstart, word_div_two cfg hf']
  by_cases hsent : off' = cfg.cap
  · -- the claim reaches the sentinel: `t` now holds the head
    subst hsent
    rw [if_pos ((isSentinel_iff cfg hstride).mpr (le_refl _))]
    have hok := ok_claim (t := t) h (cfg.cap - off) g.ck (Or.inl hown) (Or.inr rfl) hgrow
      (by omega) (by omega) hckpk hblk
      ⟨f', hf', rfl, by show g.L.cpos + (cfg.cap - off) = g.ck * cfg.cap + cfg.cap; omega⟩
    refine ⟨_, hok, ?_, ?_, ?_, fun _ => hu.idle, (fun hc => Bool.noConfusion hc), fun _ => hk,
      fun k v hv => absurd hv (hu.counts k v), ⟨rfl, rfl, rfl, ?_, hat, ?_, ?_⟩, ?_, ?_⟩
    · simpa [Pc.holdsP] using hu.prod
    · simp [Pc.holdsC]
    · simpa [Pc.holdsF] using hu.free
    · show cfg.cap - off ≤ cap
      omega
    · show (g.L.claim t (cfg.cap - off)).Holds t _
        (cfg.cap - (off / cfg.ns * cfg.ns + off % cfg.ns))
      rwa [cfg.vblock_offset]
    · show (g.L.claim t (cfg.cap - off)).Covers t _
        (cfg.cap - (off / cfg.ns * cfg.ns + off % cfg.ns))
      rwa [cfg.vblock_offset]
    · rw [word_div_two cfg hf']
    · show off / cfg.ns * cfg.ns + off % cfg.ns + (cfg.cap - off) = cfg.cap
      rw [cfg.vblock_offset]
      omega
  · have hnot : ¬ isSentinel cfg (cfg.stride * g.ck + off') = true := by
      rw [isSentinel_iff cfg (by omega)]
      omega
    rw [if_neg hnot]
    have hok := ok_claim (t := t) h (off' - off) g.ck (Or.inl hown) (Or.inl rfl) hgrow
      (by omega) (by omega) hckpk hblk
      ⟨off', f', by omega, hf', rfl,
        by show g.L.cpos + (off' - off) = g.ck * cfg.cap + off'; omega, hblk, hflag'⟩
    refine ⟨_, hok, Reader.toLocal { hu with cons := by simp } rfl rfl rfl
      (fun hc => Bool.noConfusion hc) hk ?_⟩
    refine ⟨rfl, Nat.zero_le _, ?_, ?_, cfg.pos g.ck (off / cfg.ns) (off % cfg.ns),
      fun j x hj => absurd hj (by simp), hcov, fun _ => ⟨hat, rfl, hholds⟩⟩
    · show off' - off ≤ cap
      omega
    · show 0 < off' - off
      omega

/-! ## Waiting for the producers -/

theorem Read.count_le (cfg : Config) (r : Read T) : r.count cfg ≤ cfg.ns - r.offset ∧
    r.count cfg ≤ r.len - r.written := ⟨Nat.min_le_left _ _, Nat.min_le_right _ _⟩

/-- The block of a position that `t` has claimed or taken. -/
theorem live_of_cell (h : Inv cfg s g) {k v o i : ℕ} {block : Option Addr}
    (hat : At cfg s k block v o) (hi : o + i < cfg.ns)
    (hcell : g.L.cons (cfg.pos k v o + i) ≠ .done) :
    ∃ a, block = some a ∧ g.owner a = .chain k := by
  obtain ⟨a, hblock, hget⟩ := hat.block
  refine ⟨a, hblock, live_of_not_done h hget hat.2.2.1 hi ?_⟩
  rwa [← pos_add]

/-- The slot at which the copy loop stands and the claims from there on. -/
theorem Reading.segment (hr : Reading cfg t s g r) (hlt : r.written < r.len) :
    At cfg s r.token r.block r.vblock r.offset ∧
      g.L.Holds t (cfg.pos r.token r.vblock r.offset) (r.len - r.written) := by
  obtain ⟨_, _, _, _, _, _, _, hseg⟩ := hr
  exact ⟨(hseg hlt).1, (hseg hlt).2.2⟩

/-- The segment is published: copying may start. -/
theorem draining_start (hr : Reading cfg t s g r) (hlt : r.written < r.len)
    (hpub : ∀ j, j < r.count cfg →
      ∃ x, g.L.prod (cfg.pos r.token r.vblock r.offset + j) = .published x) :
    Draining cfg t s g r 0 := by
  obtain ⟨hout, _, hcap, _, b, htook, hcov, hseg⟩ := hr
  obtain ⟨hat, hpos, hholds⟩ := hseg hlt
  rw [← hpos] at hcov
  exact ⟨hout, hlt, hcap, Nat.zero_le _, hat, ⟨b, htook, hpos⟩, hcov,
    fun j hj => absurd hj (Nat.not_lt_zero j), fun j _ hj => hholds j hj, hpub⟩

theorem rProduced_ok (h : Inv cfg s g) (hl : Local cfg t s g (.rProduced r)) :
    ∃ a, r.block = some a ∧ StepOk cfg t s g
      (if ((s.heap a).vblock r.vblock).produced = cfg.ns then (s, .rCopy r 0)
        else (s, .rPending r ((s.heap a).vblock r.vblock).produced)) := by
  obtain ⟨hr, hlt⟩ := hl.here
  obtain ⟨hat, hholds⟩ := hr.segment hlt
  obtain ⟨a, hblock, hlive⟩ := live_of_cell h hat (i := 0) (by rw [Nat.add_zero]; exact hat.2.2.2)
    (by rw [hholds 0 (by omega)]; simp)
  have hprod := (h.content a r.token hlive).produced r.vblock hat.2.2.1
  refine ⟨a, hblock, ?_⟩
  by_cases hfull : ((s.heap a).vblock r.vblock).produced = cfg.ns
  · rw [if_pos hfull]
    rw [hprod, tally_eq_iff] at hfull
    have hcount := r.count_le cfg
    have hoff := hat.2.2.2
    refine hl.stays h rfl (draining_start hr hlt fun j hj => ?_)
    apply Ledger.PCell.isPublished_iff.mp
    have hpos := cons_pos_add cfg r.token r.vblock r.offset
    exact hfull _ (by omega) (by omega)
  · rw [if_neg hfull]
    exact hl.stays h rfl ⟨hr, hlt, le_of_eq hprod⟩

/-- **The second test of the waiting loop.**  If `producer.index` still points
into the virtual block and its offset is the number of published slots, then the
slots below the offset are exactly the published ones. -/
theorem rPending_ok (h : Inv cfg s g) {produced : ℕ}
    (hl : Local cfg t s g (.rPending r produced))
    (hwhere : s.producerIndex / 2 / cfg.ns = (cfg.nv + 1) * r.token + r.vblock)
    (hcount : produced = s.producerIndex / 2 % cfg.ns)
    (hseg : r.offset + r.count cfg ≤ produced) : StepOk cfg t s g (s, .rCopy r 0) := by
  obtain ⟨hr, hlt, hle⟩ := hl.here
  obtain ⟨hat, _⟩ := hr.segment hlt
  obtain ⟨po, hpidx, hpo, _, hpown⟩ := pidx_split h
  have hstride := cfg.cap_lt_stride
  have hv := hat.2.2.1
  rw [hpidx, ridx_div_ns] at hwhere
  rw [hpidx, ridx_mod_ns] at hcount
  have hpo' := off_div_lt cfg (show po < cfg.stride by omega)
  -- the two mixed-radix numbers agree digit by digit
  have htok : g.pk = r.token := by
    have h1 : ((cfg.nv + 1) * g.pk + po / cfg.ns) / (cfg.nv + 1) = g.pk := by
      rw [Nat.mul_add_div (by omega), Nat.div_eq_of_lt hpo', Nat.add_zero]
    have h2 : ((cfg.nv + 1) * r.token + r.vblock) / (cfg.nv + 1) = r.token := by
      rw [Nat.mul_add_div (by omega), Nat.div_eq_of_lt (by omega), Nat.add_zero]
    rw [← h1, hwhere, h2]
  have hvb : po / cfg.ns = r.vblock := by
    rw [htok] at hwhere
    omega
  have hcap : po < cfg.cap := by
    by_contra hc
    have := (div_eq_nv_iff cfg (show po < cfg.stride by omega)).mpr (by omega)
    omega
  have hppos : g.L.ppos = cfg.pos r.token r.vblock 0 + produced := by
    rw [(hpown hcap).2, htok, hcount, ← hvb, cons_pos_add, cfg.pos_div_mod]
  have hmod := cfg.offset_lt po
  have hpub := tally_eq_prefix (f := fun p => (g.L.prod p).isPublished)
    (a := cfg.pos r.token r.vblock 0) (n := cfg.ns) (m := produced) (by omega)
    (fun p _ _ hp => ?_) hle
  · refine hl.stays h rfl (draining_start hr hlt fun j hj => ?_)
    apply Ledger.PCell.isPublished_iff.mp
    have hpos := cons_pos_add cfg r.token r.vblock r.offset
    exact hpub _ (by omega) (by omega)
  · obtain ⟨x, hx⟩ := Ledger.PCell.isPublished_iff.mp hp
    rw [← hppos]
    exact h.ledger.reserved_lt (by rw [hx]; simp)

/-! ## The copy loop -/

section

variable (h : Inv cfg s g)

include h

theorem rCopy_ok {i : ℕ} (hl : Local cfg t s g (.rCopy r i))
    (hi : i < r.count cfg) :
    ∃ a x, r.block = some a ∧ (s.heap a).slots r.vblock (r.offset + i) = some x ∧
      StepOk cfg t s g ({ s with delivered := s.delivered ++
          [(t, tokenOf s.linked a * cfg.cap + (r.vblock * cfg.ns + (r.offset + i)), x)] },
        .rCopy { r with out := r.out ++ [x] } (i + 1)) := by
  obtain ⟨hout, hlt, hcap, _, hat, ⟨b, htook, hpos⟩, hcov, htaken, hclaim, hpub⟩ := hl.here
  have hcount := r.count_le cfg
  have hoff : r.offset + i < cfg.ns := by omega
  have hcell := hclaim i (le_refl _) (by omega)
  obtain ⟨a, hblock, hlive⟩ := live_of_cell h hat hoff (by rw [hcell]; simp)
  obtain ⟨x, hx⟩ := hpub i hi
  rw [pos_add] at hcell hx
  refine ⟨a, x, hblock, (h.content a _ hlive).slots _ _ x hat.2.2.1 hoff (Or.inl hx), ?_⟩
  rw [h.chain.tokenOf hlive]
  have hok := ok_take h hlive hat.2.2.1 hoff hcell hx
  have hother : ∀ j, j ≠ i → (g.L.take t (cfg.pos r.token r.vblock (r.offset + i))).cons
      (cfg.pos r.token r.vblock r.offset + j) =
        g.L.cons (cfg.pos r.token r.vblock r.offset + j) := by
    intro j hj
    rw [Ledger.take_cons, update_of_ne]
    rw [← pos_add]
    omega
  -- the value just moved out continues the output
  have hp : b + r.out.length = cfg.pos r.token r.vblock (r.offset + i) := by
    rw [← pos_add]
    omega
  have htook' := htook.snoc x
  rw [hp] at htook'
  refine ⟨_, hok, { hl with
    covers := fun hc => Bool.noConfusion hc
    here := ⟨?_, hlt, hcap, hi, hat, ⟨b, htook', hpos⟩, hcov.take hcell, fun j hj => ?_,
      fun j hj hjl => ?_, hpub⟩ }⟩
  · rw [List.length_append, hout]
    rfl
  · by_cases hji : j = i
    · subst hji
      rw [pos_add]
      simp
    · rw [hother j hji]
      exact htaken j (by omega)
  · rw [hother j (by omega)]
    exact hclaim j (by omega) hjl

/-- The block of a drained segment is still in the chain. -/
theorem draining_block (hd : Draining cfg t s g r (r.count cfg)) :
    ∃ a, r.block = some a ∧ g.owner a = .chain r.token ∧ 0 < r.count cfg := by
  obtain ⟨_, hlt, _, _, hat, _, _, htaken, _, _⟩ := hd
  have hoff := hat.2.2.2
  have hpos : 0 < r.count cfg := by
    unfold Read.count
    omega
  obtain ⟨a, hblock, hlive⟩ := live_of_cell h hat (i := 0) (by rw [Nat.add_zero]; exact hoff)
    (by rw [htaken 0 hpos]; simp)
  exact ⟨a, hblock, hlive, hpos⟩

theorem rNext_ok (hl : Local cfg t s g (.rNext r)) :
    ∃ a, r.block = some a ∧ StepOk cfg t s g (s, .rConsume r (s.heap a).next) := by
  obtain ⟨a, hblock, hlive, _⟩ := draining_block h hl.here
  refine ⟨a, hblock, hl.stays h rfl ⟨hl.here, fun _ _ => ?_⟩⟩
  exact h.chain.link _ _ hlive

/-- After a segment the loop stands at the next claimed slot. -/
theorem reading_advance
    (hd : Draining cfg t s g r (r.count cfg)) (hn : Next cfg s r next) {s' : Shared T}
    (hs : s'.linked = s.linked) (hdel : s'.delivered = s.delivered) {g' : Ghost T}
    (hL : g'.L = g.L.complete (cfg.pos r.token r.vblock r.offset) (r.count cfg)) :
    Reading cfg t s' g' (r.advance cfg next) := by
  obtain ⟨hout, hlt, hcap, _, hat, ⟨b, htook, hstart⟩, hcov, _, hclaim, _⟩ := hd
  have hcount := r.count_le cfg
  refine ⟨hout, ?_, hcap, ?_, b, fun j x hj => ?_, ?_, fun hmore => ?_⟩
  · show r.written + r.count cfg ≤ r.len
    omega
  · show 0 < r.len
    omega
  · show (t, b + j, x) ∈ s'.delivered
    rw [hdel]
    exact htook j x hj
  · show g'.L.Covers t (b + (r.written + r.count cfg)) (r.len - (r.written + r.count cfg))
    rw [show r.len - r.written = r.count cfg + (r.len - (r.written + r.count cfg)) by omega] at hcov
    rw [hL, ← Nat.add_assoc, ← hstart]
    exact hcov.complete
  · have hmore' : r.written + r.count cfg < r.len := hmore
    -- the last claimed slot lies in a linked block
    have hlast := claimed_lt_linked h
      (p := cfg.pos r.token r.vblock r.offset + (r.len - r.written - 1))
      (by rw [hclaim _ (by omega) (by omega)]; simp)
    obtain ⟨k', hat', hpos', hk'⟩ := at_advance (n := r.count cfg) hat rfl
      (show r.count cfg < r.len - r.written by omega) (by omega) (fun hv => hn hv hmore')
    subst hk'
    refine ⟨?_, ?_, fun j hj => ?_⟩
    · refine ⟨?_, ?_, hat'.2.2⟩
      · rw [hs]
        exact hat'.1
      · rw [hs]
        exact hat'.2.1
    · show cfg.pos (if r.vblock + 1 = cfg.nv then r.token + 1 else r.token)
        (if r.vblock + 1 = cfg.nv then 0 else r.vblock + 1) 0 = b + (r.written + r.count cfg)
      omega
    · have hj' : j < r.len - (r.written + r.count cfg) := hj
      show g'.L.cons (cfg.pos (if r.vblock + 1 = cfg.nv then r.token + 1 else r.token)
        (if r.vblock + 1 = cfg.nv then 0 else r.vblock + 1) 0 + j) = .claimed t
      rw [hpos', hL, Ledger.complete_cons_out _ (by omega), Nat.add_assoc]
      exact hclaim _ (by omega) (by omega)

theorem rConsume_ok
    (hl : Local cfg t s g (.rConsume r next)) :
    ∃ a, r.block = some a ∧ StepOk cfg t s g
      (if ((s.heap a).vblock r.vblock).consumed + r.count cfg = cfg.ns then
        (s.modBlock a (·.addConsumed r.vblock (r.count cfg)), .rVblocks r next)
      else (s.modBlock a (·.addConsumed r.vblock (r.count cfg)), .rSeg (r.advance cfg next))) := by
  obtain ⟨hd, hn⟩ := hl.here
  obtain ⟨a, hblock, hlive, hpos⟩ := draining_block h hd
  have hcount := r.count_le cfg
  obtain ⟨_, hlt, _, _, hat, _, _, htaken, _, _⟩ := hd
  have hoff := hat.2.2.2
  have hall : ∀ p, cfg.pos r.token r.vblock r.offset ≤ p →
      p < cfg.pos r.token r.vblock r.offset + r.count cfg → g.L.cons p = .taken t := by
    intro p h1 h2
    obtain ⟨j, rfl⟩ : ∃ j, p = cfg.pos r.token r.vblock r.offset + j :=
      ⟨p - cfg.pos r.token r.vblock r.offset, by omega⟩
    exact htaken j (by omega)
  refine ⟨a, hblock, ?_⟩
  by_cases hfull : ((s.heap a).vblock r.vblock).consumed + r.count cfg = cfg.ns
  · rw [if_pos hfull]
    have hok := ok_complete h hlive hat.2.2.1 (by omega) hpos hall (Or.inr ⟨rfl, hfull⟩)
    refine ⟨_, hok, { hl with
      covers := fun hc => Bool.noConfusion hc
      counts := fun k v hkv => ?_
      here := ⟨hat, setStat_self _ _ _ _, reading_advance h hl.here.1 hn rfl rfl rfl⟩ }⟩
    by_contra hne
    have hother : ¬ (k = r.token ∧ v = r.vblock) := fun hc => hne (by rw [hc.1, hc.2]; rfl)
    exact absurd (hl.counts k v ((setStat_other _ _ hother).symm.trans hkv)) (by simp [Pc.counts])
  · rw [if_neg hfull]
    have hok := ok_complete h hlive hat.2.2.1 (by omega) hpos hall (Or.inl ⟨rfl, hfull⟩)
    exact ⟨_, hok, { hl with
      covers := fun hc => Bool.noConfusion hc
      here := reading_advance h hl.here.1 hn rfl rfl rfl }⟩

/-- Both counters of a completed virtual block are full. -/
theorem full_counters {a : Addr} {k v : ℕ} (ha : g.owner a = .chain k)
    (hall : ∀ v, v < cfg.nv → g.vstat k v ≠ .opened) (hv : v < cfg.nv) :
    (s.heap a).vblock v = ⟨cfg.ns, cfg.ns⟩ := by
  have hdone : ∀ p, cfg.pos k v 0 ≤ p → p < cfg.pos k v 0 + cfg.ns → g.L.cons p = .done := by
    intro p h1 h2
    obtain ⟨o, rfl⟩ : ∃ o, p = cfg.pos k v 0 + o := ⟨p - cfg.pos k v 0, by omega⟩
    rw [cons_pos_add]
    exact h.finished k v o hv (by omega) (hall v hv)
  have hc := (h.content a k ha).consumed v hv
  have hp := (h.content a k ha).produced v hv
  rw [tally_eq_iff.mpr fun p h1 h2 => by rw [hdone p h1 h2]; rfl] at hc
  rw [tally_eq_iff.mpr fun p h1 h2 => ?_] at hp
  · cases hvb : (s.heap a).vblock v with
    | mk produced consumed =>
      rw [hvb] at hc hp
      exact congrArg₂ VBlock.mk hp hc
  · obtain ⟨x, hx⟩ := h.ledger.done_published p (hdone p h1 h2)
    rw [hx]
    rfl

theorem rVblocks_ok
    (hl : Local cfg t s g (.rVblocks r next)) :
    ∃ a, r.block = some a ∧ StepOk cfg t s g
      (if (s.heap a).consumedVblocks + 1 = cfg.nv then
        ({ s.modBlock a (fun b => { b with consumedVblocks := b.consumedVblocks + 1 }) with
            recycled := s.recycled ++ [tokenOf s.linked a] }, .cReset r next a)
      else (s.modBlock a (fun b => { b with consumedVblocks := b.consumedVblocks + 1 }),
        .rSeg (r.advance cfg next))) := by
  obtain ⟨hat, hfull, hread⟩ := hl.here
  have hk : Keeps t g [] := hl.keeps rfl
  obtain ⟨a, hblock, hget⟩ := hat.block
  have hlive : g.owner a = .chain r.token := by
    rcases h.live _ a hget with h1 | h1
    · exact h1
    · have h2 := h1 r.vblock hat.2.2.1
      simp [hfull] at h2
  have htok := h.chain.tokenOf hlive
  refine ⟨a, hblock, ?_⟩
  -- with this count `t` owes none any more
  have hcounts : ∀ k v, setStat g.vstat r.token r.vblock .counted k v ≠ .full t := by
    intro k v hkv
    by_cases hrt : k = r.token ∧ v = r.vblock
    · simp [hrt.1, hrt.2, setStat_self] at hkv
    · have heq := hl.counts k v ((setStat_other _ _ hrt).symm.trans hkv)
      simp only [Pc.counts, Option.some.injEq, Prod.mk.injEq] at heq
      exact hrt ⟨heq.1.symm, heq.2.symm⟩
  have hu : Reader t { g with vstat := setStat g.vstat r.token r.vblock .counted } := by
    refine ⟨fun hc => ?_, fun hc => ?_, fun hc => ?_, hl.pending rfl, hcounts⟩
    · exact absurd (hl.holdsP.mp hc) (by simp [Pc.holdsP])
    · exact absurd (hl.holdsC.mp hc) (by simp [Pc.holdsC])
    · exact absurd (hl.holdsF.mp hc) (by simp [Pc.holdsF])
  by_cases hlast : (s.heap a).consumedVblocks + 1 = cfg.nv
  · rw [if_pos hlast, htok]
    have hok := ok_retire h hlive hat.2.2.1 hfull hlast
    have hall : ∀ v, v < cfg.nv → g.vstat r.token v ≠ .opened := by
      intro v hv hop
      have hcount := (count_all h hlive hat.2.2.1 hfull).mpr hlast v hv
      simp [(setStat_counted_opened hfull).mpr hop] at hcount
    have hheld : update g.owner a (.held t) a = .held t := update_self _ _ _
    have hok' :=
      ok_modBlock hok.inv hheld fun b => { b with consumedVblocks := b.consumedVblocks + 1 }
    refine ⟨_, hok.trans hok',
      Reader.toLocal { hu with } rfl rfl rfl (fun hc => Bool.noConfusion hc)
      (fun b hb => ?_) ⟨⟨hheld, hread⟩, fun v hv => ?_⟩⟩
    · by_contra hba
      have hne : b ≠ a := fun hc => hba (List.mem_singleton.mpr hc)
      exact absurd (hk b ((update_of_ne hne _ _).symm.trans hb)) (by simp)
    · show (update s.heap a
        { s.heap a with consumedVblocks := (s.heap a).consumedVblocks + 1 } a).vblock v = _
      rw [update_self]
      exact full_counters h hlive hall hv
  · rw [if_neg hlast]
    exact ⟨_, ok_count h hlive hat.2.2.1 hfull hlast,
      Reader.toLocal { hu with } rfl rfl rfl (fun hc => Bool.noConfusion hc) hk hread⟩

end

/-! ## `advance_consumer` -/

section

variable (h : Inv cfg s g)

include h

/-- While the consumer head is held, everything up to the end of its block is
claimed and nothing beyond. -/
theorem cpos_locked (hown : g.cown = some t) :
    (∃ f, f < 2 ∧ s.consumerIndex = cfg.word g.ck cfg.cap f) ∧
      g.L.cpos = g.ck * cfg.cap + cfg.cap := by
  have hc := h.chead
  unfold ConsHead at hc
  rw [hown] at hc
  obtain ⟨f, hf, hidx, hpos⟩ := hc
  exact ⟨⟨f, hf, hidx⟩, hpos⟩

theorem acLoad_ok
    (hl : Local cfg t s g (.acLoad r newIndex))
    (hgo : ¬ (s.producerIndex / 2 / cfg.ns / (cfg.nv + 1) = r.token ∨
      isSentinel cfg (s.producerIndex / 2) = true)) :
    StepOk cfg t s g (s, .acLoop r newIndex (s.producerIndex / 2) r.block) := by
  obtain ⟨hlock, hidx, hlen⟩ := hl.here
  obtain ⟨po, hpidx, hpo, hppos, _⟩ := pidx_split h
  have hstride := cfg.cap_lt_stride
  have hck := h.ck_le
  have htok := hlock.1
  rw [hpidx, ridx_div cfg (by omega), isSentinel_iff cfg (by omega)] at hgo
  have hne : g.pk ≠ r.token := fun hc => hgo (Or.inl hc)
  have hcap : po < cfg.cap := by
    by_contra hc
    exact hgo (Or.inr (by omega))
  refine hl.stays h rfl ⟨hlock, r.token, cfg.cap, g.pk, po, hidx, Or.inr rfl, hpidx, hcap,
    le_refl _, hppos, hlock.2.2.2.2.1.1, Or.inl (by omega), by omega, le_refl _, ?_⟩
  unfold Config.pos
  omega

theorem acLoop_ok {newIndex pidx : ℕ}
    (hl : Local cfg t s g (.acLoop r newIndex pidx blk)) :
    StepOk cfg t s g (s, advanceLoop cfg r newIndex pidx blk) := by
  obtain ⟨hlock, hscan⟩ := hl.here
  obtain ⟨n, o, pt, po, hidx, ho, hpidx, hpo, hpt, hppos, hblk, hn, htok, hstart, hlen⟩ := hscan
  have hstride := cfg.cap_lt_stride
  have hcap := cfg.cap_pos
  have hocap : o ≤ cfg.cap := by omega
  obtain ⟨h1, h2, h3, h4, h5, h6⟩ := hlock
  unfold advanceLoop
  simp only [hidx, hpidx, ridx_div cfg (show o < cfg.stride by omega),
    ridx_div cfg (show po < cfg.stride by omega)]
  by_cases hsame : n = pt
  · -- the producer's block: take what is there
    rw [if_pos hsame]
    subst hsame
    obtain rfl : o = 0 := by omega
    have hcount : cfg.stride * n + po - (cfg.stride * n + 0) = po := by omega
    rw [hcount]
    refine hl.stays h rfl ⟨⟨h1, h2, h3, ?_, h5, h6⟩, n, min (r.cap - r.len) po, 0, ?_,
      by omega, by omega, fun hc => absurd hc (by omega), hpt, hblk, htok, by omega, ?_⟩
    · show r.len + min (r.cap - r.len) po ≤ r.cap
      omega
    · unfold Config.word
      omega
    · show n * cfg.cap + min (r.cap - r.len) po
        = cfg.pos r.token r.vblock r.offset + (r.len + min (r.cap - r.len) po)
      omega
  · rw [if_neg hsame]
    have hnpt : n < pt := by omega
    by_cases hsent : isSentinel cfg (cfg.stride * n + o) = true
    · rw [if_pos hsent]
      refine hl.stays h rfl ⟨⟨h1, h2, h3, h4, h5, h6⟩, ⟨n, o, pt, po, hidx, ho, rfl, hpo,
        hpt, hppos, hblk, hn, htok, hstart, hlen⟩, ?_⟩
      rwa [hidx]
    · rw [if_neg hsent]
      rw [isSentinel_iff cfg (by omega)] at hsent
      obtain rfl : o = 0 := by omega
      have hmul := token_mul_le cfg hnpt
      by_cases hpart : min (r.cap - r.len) cfg.cap < cfg.cap
      · rw [if_pos hpart]
        refine hl.stays h rfl ⟨⟨h1, h2, h3, ?_, h5, h6⟩, n, min (r.cap - r.len) cfg.cap, 1,
          ?_, hpart, by omega, fun _ => by omega, by omega, hblk, ?_, by omega, ?_⟩
        · show r.len + min (r.cap - r.len) cfg.cap ≤ r.cap
          omega
        · unfold Config.word
          omega
        · exact token_succ_le cfg (by omega)
        · show n * cfg.cap + min (r.cap - r.len) cfg.cap
            = cfg.pos r.token r.vblock r.offset + (r.len + min (r.cap - r.len) cfg.cap)
          omega
      · rw [if_neg hpart]
        have hall : min (r.cap - r.len) cfg.cap = cfg.cap := by omega
        rw [hall]
        refine hl.stays h rfl ⟨⟨h1, h2, h3, ?_, h5, h6⟩, n, cfg.cap, pt, po, by omega,
          Or.inr rfl, rfl, hpo, hpt, hppos, hblk, Or.inl hnpt, htok, ?_, ?_⟩
        · show r.len + cfg.cap ≤ r.cap
          omega
        · show r.token * cfg.cap + cfg.cap ≤ n * cfg.cap + cfg.cap
          omega
        · show n * cfg.cap + cfg.cap = cfg.pos r.token r.vblock r.offset + (r.len + cfg.cap)
          omega

theorem acNext_ok {newIndex pidx : ℕ}
    (hl : Local cfg t s g (.acNext r newIndex pidx blk)) :
    ∃ a, blk = some a ∧ StepOk cfg t s g
      (s, .acLoop r (2 * (newIndex / 2 + cfg.ns) + 1) pidx (s.heap a).next) := by
  obtain ⟨hlock, hscan, hsent⟩ := hl.here
  obtain ⟨n, o, pt, po, hidx, ho, hpidx, hpo, hpt, hppos, hblk, hn, htok, hstart, hlen⟩ := hscan
  have hstride := cfg.stride_eq
  have hcap := cfg.cap_pos
  have hns := cfg.ns_pos
  have hpk := h.pk_lt
  have hocap : o ≤ cfg.cap := by omega
  rw [hidx, isSentinel_iff cfg (by omega)] at hsent
  obtain rfl : o = cfg.cap := by omega
  have hnlen : n < s.linked.length := by omega
  have hget : s.linked[n]? = some s.linked[n] := List.getElem?_eq_getElem hnlen
  obtain ⟨_, hcpos⟩ := cpos_locked h (hl.holdsC.mpr rfl)
  obtain ⟨hck, _, _, _, hat, hholds, _⟩ := hlock
  -- the walk only visits blocks with unclaimed positions, or its own block
  have hlive : g.owner s.linked[n] = .chain n := by
    rcases Nat.lt_or_ge r.token n with hlt | hge
    · apply live_of_unclaimed h hget
      have := token_mul_le cfg hlt
      rwa [hcpos, hck]
    · have hrn : n = r.token := by
        have := token_of_lt cfg (j := r.token) (k := n) (p := n * cfg.cap + cfg.cap - 1)
          (by omega) (by omega)
        omega
      subst hrn
      have hoff := cfg.offset_lt_cap hat.2.2.1 hat.2.2.2
      apply live_of_not_done h hget hat.2.2.1 hat.2.2.2
      have h0 := hholds 0 (by omega)
      rw [Nat.add_zero] at h0
      rw [h0]
      simp
  refine ⟨s.linked[n], hblk.trans hget, hl.stays h rfl ⟨hl.here.1, n + 1, 0, pt, po, ?_,
    Or.inl rfl, hpidx, hpo, hpt, hppos, ?_, ?_, htok, ?_, ?_⟩⟩
  · have hexp : cfg.stride * (n + 1) = cfg.stride * n + cfg.stride := by ring
    omega
  · exact h.chain.link _ n hlive
  · omega
  · have hexp : (n + 1) * cfg.cap = n * cfg.cap + cfg.cap := by ring
    omega
  · have hexp : (n + 1) * cfg.cap = n * cfg.cap + cfg.cap := by ring
    omega

theorem acBlock_ok
    (hl : Local cfg t s g (.acBlock r newIndex blk)) :
    StepOk cfg t s g ({ s with consumerBlock := blk }, .acIndex r newIndex) := by
  obtain ⟨hlock, n, o, f, h1, h2, h3, h4, h5, rfl, h7, h8, h9⟩ := hl.here
  have hpk := h.pk_lt
  have hck := hlock.1
  exact ⟨g, ok_consumerBlock h (hl.holdsC.mpr rfl) (by omega) (by omega),
    { hl with here := ⟨hlock, n, o, f, h1, h2, h3, h4, h5, rfl, h7, h8, h9⟩ }⟩

/-- **Storing `consumer.index`** claims the rest and releases the head. -/
theorem acIndex_ok
    (hl : Local cfg t s g (.acIndex r newIndex)) :
    StepOk cfg t s g ({ s with
      consumerIndex := newIndex
      claims := s.claims ++ [(t, (r.token + 1) * cfg.cap,
        r.len - (cfg.cap - (r.vblock * cfg.ns + r.offset)))] }, .rSeg r) := by
  obtain ⟨⟨hck, hout, hwritten, hcap, hat, hholds, hcov⟩, n, o, f, rfl, ho, hf, hflag, hnpk,
    hblk, htok, hppos, hlen⟩ := hl.here
  have hown : g.cown = some t := hl.holdsC.mpr rfl
  obtain ⟨⟨f', hf', hidx⟩, hcpos⟩ := cpos_locked h hown
  have hoff := cfg.offset_lt_cap hat.2.2.1 hat.2.2.2
  have hmul := token_mul_le cfg htok
  have hpkm := Nat.mul_le_mul_right cfg.cap hnpk
  obtain ⟨first, hfirst⟩ : ∃ first, first = cfg.cap - (r.vblock * cfg.ns + r.offset) := ⟨_, rfl⟩
  rw [← hfirst] at hholds hcov ⊢
  have hposn : cfg.pos r.token r.vblock r.offset + first = g.L.cpos := by
    rw [hcpos, hck]
    unfold Config.pos
    omega
  have hend : g.L.cpos + (r.len - first) = n * cfg.cap + o := by
    rw [hck] at hcpos
    omega
  have hlenpos : first ≤ r.len := by
    rw [hck] at hcpos
    omega
  have hstart : (r.token + 1) * cfg.cap = g.L.cpos := by
    rw [hcpos, hck]
    ring
  rw [hstart]
  have hgrow : s.consumerIndex < cfg.word n o f := by
    have hword : cfg.stride * g.ck + cfg.cap < cfg.stride * n + o :=
      ridx_lt_of_token_lt cfg cfg.cap_lt_stride (by omega)
    rw [hidx]
    unfold Config.word
    omega
  have hok := ok_claim h (r.len - first) n (Or.inr hown) (Or.inl rfl) hgrow (by omega) (by omega)
    hnpk hblk ⟨o, f, ho, hf, rfl, hend, hblk, hflag⟩
  refine ⟨_, hok, ?_, ?_, ?_, hl.pending, (fun hc => Bool.noConfusion hc), hl.keeps, hl.counts, ?_⟩
  · exact hl.holdsP
  · simp [Pc.holdsC]
  · exact hl.holdsF
  · refine ⟨by rw [hout, hwritten]; rfl, by omega, hcap, ?_,
      cfg.pos r.token r.vblock r.offset, fun j x hj => ?_, ?_, fun _ => ⟨hat, ?_, fun j hj => ?_⟩⟩
    · omega
    · simp [hout] at hj
    · have hext := hcov.extend hposn (r.len - first)
      rw [Nat.add_sub_cancel' hlenpos] at hext
      rwa [hwritten]
    · omega
    · -- the first part was claimed with the sentinel, the second just now
      by_cases hjf : j < first
      · rw [Ledger.claim_cons_out _ _ (by omega)]
        exact hholds j hjf
      · exact Ledger.claim_cons_in _ _ (by omega) (by omega)

end

end V8
