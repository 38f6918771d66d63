/-
# The steps of `write_from`

One lemma for each program counter of `write_from` and `advance_producer` whose
step touches shared memory or needs an argument; each says that the step keeps
the proof outline.
-/
import Ubq.V8.Heads
import Ubq.V8.Freelist

namespace V8

open Function

variable {T : Type*} {cfg : Config} {t u : Tid} {s s' : Shared T} {g g' : Ghost T}
variable {w : Write T} {a : Advance T} {blocks : List Addr} {index : ℕ} {src : List T}
  {block next : Option Addr}

/-! ## Reading the head -/

theorem decodeIndex_split (cfg : Config) (ridx : ℕ) :
    decodeIndex ridx cfg.ns cfg.nv
      = (ridx / cfg.stride, ridx % cfg.stride / cfg.ns, ridx % cfg.stride % cfg.ns) := by
  obtain ⟨heq, hlt⟩ := ridx_split cfg ridx
  have h := decodeIndex_eq cfg (k := ridx / cfg.stride) hlt
  rwa [← heq] at h

theorem onSlot_iff (cfg : Config) (index : ℕ) :
    isSentinel cfg (index / 2) = false ↔ OnSlot cfg index := by
  obtain ⟨heq, hlt⟩ := ridx_split cfg (index / 2)
  have h := isSentinel_iff cfg (k := index / 2 / cfg.stride) hlt
  rw [← heq] at h
  unfold OnSlot
  rw [← not_iff_not, Bool.not_eq_false, h]
  omega

/-- A pair read index first is a snapshot. -/
theorem psnap_load (h : Inv cfg s g) (hi : index ≤ s.producerIndex) :
    PSnap s g index s.producerBlock := by
  refine ⟨hi, h.pblock, fun _ hown => ?_⟩
  have hp := h.phead
  unfold ProdHead at hp
  rw [hown] at hp
  obtain ⟨_, _, _, _, _, _, hblk, _⟩ := hp
  exact hblk

/-- **The provisioning test** leaves enough private blocks for the reservation. -/
theorem provision_ok (h : Inv cfg s g) (hu : Unlocked t g)
    (hk : Keeps t g blocks) (hsrc : src ≠ []) (hsnap : PSnap s g index block)
    (hslot : OnSlot cfg index) (ho : Owned t s g blocks) (hl : Linked s blocks) :
    StepOk cfg t s g (provision cfg s src index block blocks) := by
  have hcap := cfg.cap_pos
  have hoff : cfg.ns * (index / 2 % cfg.stride / cfg.ns) + index / 2 % cfg.stride % cfg.ns
      = index / 2 % cfg.stride := Nat.div_add_mod _ _
  unfold provision
  rw [decodeIndex_split]
  show StepOk cfg t s g (if _ then _ else _)
  rw [hoff]
  by_cases hneed : cfg.cap * (blocks.length + index % 2 + 1) - index / 2 % cfg.stride ≤ src.length
  · rw [if_pos hneed]
    refine acquire_ok h hu hk ⟨hsrc, hsnap, hslot, ?_, ho, rfl, hl⟩
    -- rounding up covers what the private blocks do not
    have hceil : src.length - cfg.cap * blocks.length
        ≤ cfg.cap * divCeil (src.length - cfg.cap * blocks.length) cfg.cap := by
      unfold divCeil
      have hdm := Nat.div_add_mod (src.length - cfg.cap * blocks.length + cfg.cap - 1) cfg.cap
      have hmod := Nat.mod_lt (src.length - cfg.cap * blocks.length + cfg.cap - 1) hcap
      omega
    unfold OnSlot at hslot
    unfold Enough
    have hexp : cfg.cap * (blocks.length + ([] : List Addr).length
        + divCeil (src.length - cfg.cap * blocks.length) cfg.cap + index % 2 + 1)
        = cfg.cap * blocks.length
          + cfg.cap * divCeil (src.length - cfg.cap * blocks.length) cfg.cap
          + cfg.cap * (index % 2) + cfg.cap := by
      rw [List.length_nil]
      ring
    rw [hexp]
    omega
  · rw [if_neg hneed]
    refine ⟨g, Ok.refl h, hu.toLocal rfl rfl rfl hk ⟨hsrc, hsnap, hslot, ?_, ho, hl⟩⟩
    unfold Enough
    omega

/-! ## The reservation -/

/-- The slot at offset `off` of block `k`. -/
theorem at_slot {k off : ℕ} (hk : k < s.linked.length) (hoff : off < cfg.cap) :
    At cfg s k s.linked[k]? (off / cfg.ns) (off % cfg.ns) :=
  ⟨rfl, hk, cfg.vblock_lt hoff, cfg.offset_lt off⟩

/-- A fresh reservation of a thread that owed nothing is a job with nothing moved. -/
theorem job_reserve (hidle : g.L.Pending t 0 0) {s' : Shared T} {g' : Ghost T}
    (hs : s'.reservations = s.reservations ++ [(t, g.L.ppos, src)])
    (hg : g'.L = g.L.reserve t src) : Job t s' g' src g.L.ppos 0 := by
  refine ⟨lastResv_self hs, nofun, fun p v hp => ?_⟩
  rw [hg] at hp
  by_cases h1 : p < g.L.ppos
  · rw [Ledger.reserve_prod_old g.L t src h1] at hp
    have := hidle p v hp
    omega
  · by_cases h2 : p < g.L.ppos + src.length
    · omega
    · rw [Ledger.reserve_prod_beyond g.L t src (by omega)] at hp
      have := hidle p v hp
      omega

/-- **The successful compare-exchange on `producer.index`.** -/
theorem reserved_ok (h : Inv cfg s g) (hu : Unlocked t g)
    (hk : Keeps t g blocks) (hsrc : src ≠ []) (hsnap : PSnap s g index block)
    (hslot : OnSlot cfg index) (hroom : Enough cfg index blocks.length src.length)
    (ho : Owned t s g blocks) (hl : Linked s blocks) (heq : s.producerIndex = index) :
    StepOk cfg t s g (reserved cfg t s src index block blocks) := by
  subst heq
  obtain ⟨hown, off, f, hoff, hf, hidx, hpos, hblk, hflag⟩ := phead_onSlot h hslot
  have hblock : block = s.linked[g.pk]? := hsnap.2.2 rfl hown
  have hlen : 0 < src.length := List.length_pos_iff.mpr hsrc
  have hcap := cfg.cap_lt_stride
  have hpk := token_mul_le cfg h.pk_lt
  have hdec : decodeIndex (s.producerIndex / 2) cfg.ns cfg.nv
      = (g.pk, off / cfg.ns, off % cfg.ns) := by
    rw [hidx, word_div_two cfg hf, decodeIndex_eq cfg (by omega)]
  have hmod : s.producerIndex % 2 = f := by rw [hidx, word_mod_two cfg hf]
  have hstart : g.pk * cfg.cap + (off / cfg.ns * cfg.ns + off % cfg.ns) = g.L.ppos := by
    rw [cfg.vblock_offset, hpos]
  have hposeq : cfg.pos g.pk (off / cfg.ns) (off % cfg.ns) = g.L.ppos := by
    rw [cfg.pos_div_mod, hpos]
  have hgrow : s.producerIndex < cfg.word g.pk (min (off + src.length) cfg.cap) f := by
    rw [hidx]
    unfold Config.word
    omega
  unfold reserved
  rw [hdec, hmod]
  simp only [reserveIndex_eq, hstart, word_div_two cfg hf]
  by_cases hsent : cfg.cap ≤ off + src.length
  · -- the reservation reaches the sentinel: `t` now holds the head
    have hmin : min (off + src.length) cfg.cap = cfg.cap := by omega
    rw [hmin] at hgrow ⊢
    rw [if_pos ((isSentinel_iff cfg hcap).mpr (le_refl _))]
    have hok := ok_reserve (t := t) h hown src (Or.inr rfl) hgrow
      ⟨f, hf, rfl, by show g.pk * cfg.cap + cfg.cap ≤ g.L.ppos + src.length; omega⟩
    refine ⟨_, hok, ?_, ?_, ?_, fun hc => absurd hc (by simp [Pc.writing]), fun _ => hu.covers,
      fun _ => hk, fun k v hv => absurd hv (hu.counts k v), ?_, ?_⟩
    · simp [Pc.holdsP]
    · simpa [Pc.holdsC] using hu.cons
    · simpa [Pc.holdsF] using hu.free
    · refine ⟨rfl, hblock ▸ at_slot h.pk_lt hoff, rfl, rfl, hsrc, ?_, ?_, ?_, ?_, ho, hl⟩
      · rw [hposeq]
        exact job_reserve hu.idle rfl rfl
      · rw [hposeq]
        exact Ledger.owes_reserve g.L t src
      · show cfg.pos g.pk (off / cfg.ns) (off % cfg.ns) + src.length = g.L.ppos + src.length
        rw [hposeq]
      · show g.L.ppos + src.length < (s.linked.length + blocks.length) * cfg.cap
        unfold Enough at hroom
        rw [hmod, hidx, word_div_two cfg hf, Nat.mul_add_mod,
          Nat.mod_eq_of_lt (by omega)] at hroom
        have hblocks : g.pk + 1 + f ≤ s.linked.length := by
          have := h.pk_lt
          by_cases hf1 : f = 1
          · have := hflag hf1
            omega
          · omega
        have hmul : (g.pk + 1 + f + blocks.length) * cfg.cap
            ≤ (s.linked.length + blocks.length) * cfg.cap :=
          Nat.mul_le_mul_right _ (by omega)
        have hexp : (g.pk + 1 + f + blocks.length) * cfg.cap
            = g.pk * cfg.cap + cfg.cap * (blocks.length + f + 1) := by ring
        omega
    · exact ⟨g.pk, le_refl _, h.pk_lt, hblock⟩
  · have hmin : min (off + src.length) cfg.cap = off + src.length := by omega
    rw [hmin] at hgrow ⊢
    have hnot : ¬ isSentinel cfg (cfg.stride * g.pk + (off + src.length)) = true := by
      rwa [isSentinel_iff cfg (by omega)]
    rw [if_neg hnot]
    have hok := ok_reserve (t := t) h hown src (Or.inl rfl) hgrow
      ⟨off + src.length, f, by omega, hf, rfl,
        by show g.L.ppos + src.length = g.pk * cfg.cap + (off + src.length); omega, hblk, hflag⟩
    refine ⟨_, hok, ?_, ?_, ?_, fun hc => absurd hc (by simp [Pc.writing]), fun _ => hu.covers,
      fun _ => hk, fun k v hv => absurd hv (hu.counts k v), ho, hl, ?_⟩
    · simp [Pc.holdsP]
    · simpa [Pc.holdsC] using hu.cons
    · simpa [Pc.holdsF] using hu.free
    refine ⟨Nat.zero_le _, g.L.ppos, job_reserve hu.idle rfl rfl,
      fun _ => ⟨g.pk, hblock ▸ at_slot h.pk_lt hoff, hposeq, ?_, ?_⟩⟩
    · rw [hposeq, List.drop_zero]
      exact Ledger.owes_reserve g.L t src
    · show cfg.pos g.pk (off / cfg.ns) (off % cfg.ns) + (src.length - 0)
        ≤ s.linked.length * cfg.cap
      rw [hposeq]
      omega

/-! ## `advance_producer` -/

section

variable (h : Inv cfg s g)

include h

/-- A block with a position `t` still owes is in the chain. -/
theorem live_of_owes {k v o : ℕ} {vs : List T} {a : Addr}
    (hat : At cfg s k (some a) v o) (hvs : vs ≠ []) (ho : g.L.Owes t (cfg.pos k v o) vs) :
    g.owner a = .chain k := by
  obtain ⟨x, xs, rfl⟩ := List.exists_cons_of_ne_nil hvs
  apply live_of_not_published h hat.1.symm hat.2.2.1 hat.2.2.2
  intro y hy
  have h0 := ho 0 x rfl
  simp [hy] at h0

/-- From the block of the head on, every block is in the chain. -/
theorem live_from {v o : ℕ} {vs : List T}
    (hat : At cfg s g.pk block v o) (hvs : vs ≠ []) (ho : g.L.Owes t (cfg.pos g.pk v o) vs)
    {j : ℕ} {a : Addr} (hj : g.pk ≤ j) (ha : s.linked[j]? = some a) : g.owner a = .chain j := by
  rcases Nat.lt_or_eq_of_le hj with hlt | rfl
  · apply live_of_unclaimed h ha
    have h1 := h.cpos_pk
    have h2 := token_mul_le cfg hlt
    omega
  · have hblock : block = some a := hat.1.trans ha
    subst hblock
    exact live_of_owes h hat hvs ho

theorem apFind_ok {token : ℕ} {curr : Option Addr}
    (hl : Local cfg t s g (.apFind w token curr blocks)) :
    ∃ a, curr = some a ∧ StepOk cfg t s g (match (s.heap a).next with
      | none => (s, .apLink w token a blocks)
      | some n => (s, .apFind w token (some n) blocks)) := by
  obtain ⟨hlink, j, hj, hlen, hcurr⟩ := hl.here
  have hget : s.linked[j]? = some s.linked[j] := List.getElem?_eq_getElem hlen
  have hat := hlink.2.1
  have howes := hlink.2.2.2.2.2.2.1
  have hlive := live_from h hat hlink.2.2.2.2.1 howes hj hget
  have hnext : (s.heap s.linked[j]).next = s.linked[j + 1]? := h.chain.link _ j hlive
  refine ⟨s.linked[j], hcurr.trans hget, ?_⟩
  by_cases hlast : j + 1 < s.linked.length
  · have hn : s.linked[j + 1]? = some s.linked[j + 1] := List.getElem?_eq_getElem hlast
    rw [hnext, hn]
    exact hl.stays h rfl ⟨hlink, j + 1, by omega, hlast, hn.symm⟩
  · rw [hnext, List.getElem?_eq_none (by omega)]
    refine hl.stays h rfl ⟨hlink, ?_⟩
    rwa [show s.linked.length - 1 = j by omega]

theorem apLink_ok {token : ℕ} {curr : Addr}
    (hl : Local cfg t s g (.apLink w token curr blocks)) :
    StepOk cfg t s g
      ({ s.modBlock curr (·.setNext blocks.head?) with linked := s.linked ++ blocks },
        .apWalk ⟨w, token, w.vblock * cfg.ns + w.offset, w.src.length, w.block, 0⟩) := by
  obtain ⟨⟨htok, hat, hmoved, hblocks, hsrc, hjob, howes, hppos, hroom, ho, hlk⟩, hlast⟩ := hl.here
  have hown : g.pown = some t := hl.holdsP.mpr rfl
  have hpk := h.pk_lt
  have hlive := live_from h hat hsrc howes (j := s.linked.length - 1) (by omega) hlast
  have hcap := pos_lt_succ cfg (k := g.pk) hat.2.2.1 hat.2.2.2
  have hbeyond := token_mul_le cfg hpk
  -- everything past the chain is either owed by `t` or not reserved yet
  have hfresh : ∀ p x, s.linked.length * cfg.cap ≤ p → ¬ g.L.Stored p x := by
    intro p x hp hst
    have hlt : p < g.L.ppos := by
      apply h.ledger.reserved_lt
      rcases hst with hst | ⟨v, hst⟩ <;> rw [hst] <;> simp
    obtain ⟨j, hj⟩ : ∃ j, p = cfg.pos g.pk w.vblock w.offset + j :=
      ⟨p - cfg.pos g.pk w.vblock w.offset, by omega⟩
    have hx : w.src[j]? = some w.src[j] := List.getElem?_eq_getElem (by omega)
    have hres := howes j _ hx
    rw [← hj] at hres
    rcases hst with hst | ⟨v, hst⟩ <;> rw [hres] at hst <;> exact absurd hst (by simp)
  have hok := ok_link h hown hlast hlive ho hlk hfresh
  have hpref : s.linked <+: s.linked ++ blocks := List.prefix_append _ _
  have hget : (s.linked ++ blocks)[g.pk]? = s.linked[g.pk]? := prefix_getElem? hpref hpk
  have hph := h.phead
  unfold ProdHead at hph
  rw [hown] at hph
  obtain ⟨f, _, _, hsent⟩ := hph
  refine ⟨_, hok, { hl with
    keeps := fun _ => (hl.keeps rfl).link rfl
    here := ⟨⟨htok, ?_, hmoved, hblocks, hsrc, { hjob with }, howes, hppos, ?_, ?_,
      cfg.offset_lt_cap hat.2.2.1 hat.2.2.2, ?_⟩, fun _ => ?_⟩ }⟩
  · refine ⟨hat.1.trans hget.symm, ?_, hat.2.2⟩
    show g.pk < (s.linked ++ blocks).length
    rw [List.length_append]
    omega
  · rwa [List.length_append]
  · rw [Nat.add_zero, hget]
    exact hat.1
  · show (g.pk + 0) * cfg.cap + (w.vblock * cfg.ns + w.offset + w.src.length) = g.L.ppos
    unfold Config.pos at hppos
    rw [Nat.add_zero]
    omega
  · show cfg.cap ≤ w.vblock * cfg.ns + w.offset + w.src.length
    unfold Config.pos at hppos
    omega

/-- The block at which the walk stands. -/
theorem walking_block (hw : Walking cfg t s g a) :
    ∃ b, a.blk = some b ∧ g.pk + a.depth < s.linked.length ∧
      (s.heap b).next = s.linked[g.pk + a.depth + 1]? := by
  obtain ⟨_, hat, _, _, hsrc, _, howes, _, hroom, hblk, _, hpos⟩ := hw
  have hlt : g.pk + a.depth < s.linked.length := by
    by_contra hc
    have := Nat.mul_le_mul_right cfg.cap (Nat.le_of_not_lt hc)
    omega
  have hget : s.linked[g.pk + a.depth]? = some s.linked[g.pk + a.depth] :=
    List.getElem?_eq_getElem hlt
  refine ⟨s.linked[g.pk + a.depth], hblk.trans hget, hlt, ?_⟩
  exact h.chain.link _ _ (live_from h hat hsrc howes (Nat.le_add_right _ _) hget)

theorem apWalk_ok (hl : Local cfg t s g (.apWalk a))
    (hfit : cfg.cap - a.off ≤ a.rem) :
    ∃ b, a.blk = some b ∧ StepOk cfg t s g (s, .apWalk { a with
      rem := a.rem - (cfg.cap - a.off), off := 0, blk := (s.heap b).next,
      depth := a.depth + 1 }) := by
  obtain ⟨hw, _⟩ := hl.here
  obtain ⟨b, hb, _, hnext⟩ := walking_block h hw
  refine ⟨b, hb, hl.stays h rfl ⟨?_, nofun⟩⟩
  obtain ⟨h1, h2, h3, h4, h5, hjob, h6, h7, h8, _, h10, h11⟩ := hw
  refine ⟨h1, h2, h3, h4, h5, hjob, h6, h7, h8, ?_, cfg.cap_pos, ?_⟩
  · rw [hnext]
    rfl
  · show (g.pk + (a.depth + 1)) * cfg.cap + (0 + (a.rem - (cfg.cap - a.off))) = g.L.ppos
    have hexp : (g.pk + (a.depth + 1)) * cfg.cap = (g.pk + a.depth) * cfg.cap + cfg.cap := by ring
    omega

theorem apHas_ok (hl : Local cfg t s g (.apHas a)) :
    ∃ b, a.blk = some b ∧
      StepOk cfg t s g (s, .apBlock a (if (s.heap b).next.isNone then 0 else 1)) := by
  obtain ⟨hw, hdepth, hfit⟩ := hl.here
  obtain ⟨b, hb, _, hnext⟩ := walking_block h hw
  refine ⟨b, hb, hl.stays h rfl ⟨hw, hdepth, hfit, ?_, fun hone => ?_⟩⟩
  · split <;> omega
  · by_contra hc
    rw [hnext, List.getElem?_eq_none (by omega)] at hone
    exact absurd hone (by simp)

theorem apBlock_ok {hasNext : ℕ}
    (hl : Local cfg t s g (.apBlock a hasNext)) :
    StepOk cfg t s g ({ s with producerBlock := a.blk }, .apIndex a hasNext) := by
  obtain ⟨hw, hdepth, hfit, hflag, hnext⟩ := hl.here
  obtain ⟨b, hb, _, _⟩ := walking_block h hw
  refine ⟨g, ok_producerBlock h (hl.holdsP.mpr rfl) (by rw [hb]; simp), ?_⟩
  obtain ⟨h1, h2, h3, h4, h5, hjob, hrest⟩ := hw
  exact { hl with
    here := ⟨⟨h1, h2, h3, h4, h5, { hjob with }, hrest⟩, hdepth, hfit, hflag, hnext, rfl⟩ }

theorem apIndex_ok {hasNext : ℕ}
    (hl : Local cfg t s g (.apIndex a hasNext)) :
    StepOk cfg t s g ({ s with producerIndex :=
      2 * (cfg.stride * (a.token + a.depth) + a.off + a.rem) + hasNext }, .wSeg a.w) := by
  obtain ⟨hw, hdepth, hfit, hflag, hnext, hpb⟩ := hl.here
  obtain ⟨_, _, hlt, _⟩ := walking_block h hw
  obtain ⟨htok, hat, hmoved, hblocks, hsrc, hjob, howes, hppos, hroom, hblk, hoff, hpos⟩ := hw
  have hword : 2 * (cfg.stride * (a.token + a.depth) + a.off + a.rem) + hasNext
      = cfg.word (g.pk + a.depth) (a.off + a.rem) hasNext := by
    unfold Config.word
    rw [htok]
    omega
  rw [hword]
  have hok := ok_producerIndex h (hl.holdsP.mpr rfl) (k := g.pk + a.depth) (by omega) hlt hfit hflag
    hpos (hpb.trans hblk) hnext
  refine ⟨_, hok, ?_, ?_, ?_, fun hc => absurd hc (by simp [Pc.writing]), hl.covers, fun _ => ?_,
    hl.counts, ?_, ?_, ?_⟩
  · simp [Pc.holdsP]
  · exact hl.holdsC
  · exact hl.holdsF
  · show Keeps t _ a.w.blocks
    rw [hblocks]
    exact hl.keeps rfl
  · rw [hblocks]
    exact ⟨List.nodup_nil, fun b hb => absurd hb (by simp)⟩
  · rw [hblocks]
    rfl
  · rw [← hmoved] at hjob
    refine ⟨by omega, cfg.pos g.pk a.w.vblock a.w.offset,
      ⟨hjob.resv, hjob.sent, hjob.pending⟩, fun _ => ⟨g.pk, hat, by omega, ?_, ?_⟩⟩
    · rwa [hmoved, List.drop_zero]
    · show cfg.pos g.pk a.w.vblock a.w.offset + (a.w.src.length - a.w.moved)
        ≤ s.linked.length * cfg.cap
      omega

end

/-! ## The copy loop -/

/-- A segment ends within its virtual block and within the input. -/
theorem Write.count_le (cfg : Config) (w : Write T) : w.count cfg ≤ cfg.ns - w.offset ∧
    w.count cfg ≤ w.src.length - w.moved := ⟨Nat.min_le_left _ _, Nat.min_le_right _ _⟩

theorem filling_start {k a : ℕ} (hlt : w.moved < w.src.length)
    (hjob : Job t s g w.src a w.moved) (hat : At cfg s k w.block w.vblock w.offset)
    (hpos : cfg.pos k w.vblock w.offset = a + w.moved)
    (howes : g.L.Owes t (cfg.pos k w.vblock w.offset) (w.src.drop w.moved))
    (hroom : cfg.pos k w.vblock w.offset + (w.src.length - w.moved) ≤ s.linked.length * cfg.cap)
    (hnext : w.vblock + 1 = cfg.nv → next = s.linked[k + 1]?) : Filling cfg t s g w next 0 := by
  refine ⟨hlt, Nat.zero_le _, k, hat, ⟨a, hjob, hpos⟩, fun j x hj => absurd hj (Nat.not_lt_zero j),
    fun j x _ hx => howes j x ?_, hroom, fun hv _ => hnext hv⟩
  rwa [List.getElem?_drop]

theorem wSeg_ok (h : Inv cfg s g) (hl : Local cfg t s g (.wSeg w)) :
    StepOk cfg t s g (if w.moved < w.src.length then
      if w.vblock + 1 = cfg.nv then (s, .wNext w) else (s, .wCopy w none 0)
    else (s, .wDrop w)) := by
  obtain ⟨ho, hlk, hw⟩ := hl.here
  by_cases hlt : w.moved < w.src.length
  · rw [if_pos hlt]
    by_cases hv : w.vblock + 1 = cfg.nv
    · rw [if_pos hv]
      exact hl.stays h rfl ⟨ho, hlk, hw, hlt⟩
    · rw [if_neg hv]
      obtain ⟨_, a, hjob, hseg⟩ := hw
      obtain ⟨k, hat, hpos, howes, hroom⟩ := hseg hlt
      exact hl.stays h rfl
        ⟨ho, hlk, filling_start hlt hjob hat hpos howes hroom fun hc => absurd hc hv⟩
  · rw [if_neg hlt]
    obtain ⟨hle, a, hjob, _⟩ := hw
    have hall : w.moved = w.src.length := by omega
    have hpend := hjob.pending
    have hsent := hjob.sent
    rw [hall, Nat.sub_self] at hpend
    rw [hall, List.take_length] at hsent
    exact ⟨g, Ok.refl h, { hl with
      pending := fun _ => hpend.none
      here := ⟨ho, hall, a, hjob.resv, hsent⟩ }⟩

theorem wNext_ok (h : Inv cfg s g) (hl : Local cfg t s g (.wNext w)) :
    ∃ a, w.block = some a ∧ StepOk cfg t s g (s, .wCopy w (s.heap a).next 0) := by
  obtain ⟨ho, hlk, ⟨_, p, hjob, hseg⟩, hlt⟩ := hl.here
  obtain ⟨k, hat, hpos, howes, hroom⟩ := hseg hlt
  obtain ⟨a, hblock, _⟩ := hat.block
  have hne : w.src.drop w.moved ≠ [] := by
    rw [Ne, List.drop_eq_nil_iff]
    omega
  have hlive := live_of_owes h (hblock ▸ hat) hne howes
  refine ⟨a, hblock, hl.stays h rfl ⟨ho, hlk, ?_⟩⟩
  exact filling_start hlt hjob hat hpos howes hroom fun _ => h.chain.link _ k hlive

/-- The block a segment is written to, its next slot and the value for it. -/
theorem filling_block (h : Inv cfg s g) {i k : ℕ}
    (hi : i < w.count cfg) (hat : At cfg s k w.block w.vblock w.offset)
    (hcell : ∀ x, g.L.prod (cfg.pos k w.vblock w.offset + i) ≠ .published x) :
    ∃ a, w.block = some a ∧ g.owner a = .chain k ∧ w.offset + i < cfg.ns := by
  obtain ⟨a, hblock, hget⟩ := hat.block
  have hcount := w.count_le cfg
  have ho : w.offset + i < cfg.ns := by omega
  refine ⟨a, hblock, ?_, ho⟩
  apply live_of_not_published h hget hat.2.2.1 ho
  rwa [← pos_add]

theorem wCopy_ok (h : Inv cfg s g) {i : ℕ}
    (hl : Local cfg t s g (.wCopy w next i)) (hi : i < w.count cfg) :
    ∃ v a, w.src[w.moved + i]? = some v ∧ w.block = some a ∧ StepOk cfg t s g
      ({ s.modBlock a (·.setSlot w.vblock (w.offset + i) v) with
          copied := s.copied ++
            [(tokenOf s.linked a * cfg.cap + (w.vblock * cfg.ns + (w.offset + i)), v)] },
        .wCopy w next (i + 1)) := by
  obtain ⟨ho, hlk, hlt, _, k, hat, ⟨p, hjob, hpos⟩, hcop, hres, hroom, hnext⟩ := hl.here
  have hcount := w.count_le cfg
  obtain ⟨y, hv⟩ : ∃ y, w.src[w.moved + i]? = some y :=
    ⟨_, List.getElem?_eq_getElem (by omega)⟩
  have hcell := hres i _ (le_refl _) hv
  obtain ⟨a, ha, hlive, hoff⟩ := filling_block h hi hat (by rw [hcell]; simp)
  refine ⟨_, a, hv, ha, ?_⟩
  rw [h.chain.tokenOf hlive]
  rw [pos_add] at hcell
  have hok := ok_copy h hlive hat.2.2.1 hoff hcell
  have hne := ho.ne_chain hlive
  have hheap : ∀ b ∈ w.blocks, (s.modBlock a (·.setSlot w.vblock (w.offset + i)
      y)).heap b = s.heap b := fun b hb => update_of_ne (hne b hb) _ _
  have hcell' : ∀ j, j ≠ i → (g.L.copy t (cfg.pos k w.vblock (w.offset + i))
      y).prod (cfg.pos k w.vblock w.offset + j)
      = g.L.prod (cfg.pos k w.vblock w.offset + j) := by
    intro j hj
    rw [Ledger.copy_prod, update_of_ne]
    rw [← pos_add]
    omega
  have hjob' : Job t { s with copied := s.copied ++ [(cfg.pos k w.vblock (w.offset + i),
      y)] } { g with L := g.L.copy t (cfg.pos k w.vblock (w.offset + i)) y } w.src p w.moved := by
    refine ⟨hjob.resv, fun j x hj => ?_, fun q v hq => ?_⟩
    · exact Ledger.Step.published h.ledger (.copy _ _ hcell) (hjob.sent j x hj)
    · -- the copied slot was pending before, the others are as they were
      by_cases hqi : q = cfg.pos k w.vblock (w.offset + i)
      · subst hqi
        exact hjob.pending _ _ (Or.inl hcell)
      · apply hjob.pending q v
        rw [show (g.L.copy t (cfg.pos k w.vblock (w.offset + i)) y).prod q = g.L.prod q from
            update_of_ne hqi _ _] at hq
        exact hq
  refine ⟨_, hok, { hl with
    pending := fun hc => Bool.noConfusion hc
    here := ⟨ho.of_eq (fun _ _ => rfl) hheap, hlk.of_eq hheap, hlt, hi, k, hat,
      ⟨p, { hjob' with }, hpos⟩, fun j x hj hx => ?_, fun j x hj hx => ?_, hroom, hnext⟩ }⟩
  · show (g.L.copy t (cfg.pos k w.vblock (w.offset + i)) y).prod
      (cfg.pos k w.vblock w.offset + j) = .copied t x
    by_cases hji : j = i
    · subst hji
      rw [hv] at hx
      rw [← Option.some.inj hx, pos_add]
      simp
    · rw [hcell' j hji]
      exact hcop j x (by omega) hx
  · show (g.L.copy t (cfg.pos k w.vblock (w.offset + i)) y).prod
      (cfg.pos k w.vblock w.offset + j) = .reserved t x
    rw [hcell' j (by omega)]
    exact hres j x (by omega) hx

/-- After a segment the loop stands at the next slot. -/
theorem at_advance {k v o n m : ℕ} {block next : Option Addr} (hat : At cfg s k block v o)
    (hn : min (cfg.ns - o) m = n) (hlt : n < m)
    (hroom : cfg.pos k v o + m ≤ s.linked.length * cfg.cap)
    (hnext : v + 1 = cfg.nv → next = s.linked[k + 1]?) :
    ∃ k', At cfg s k' (if v + 1 = cfg.nv then next else block)
        (if v + 1 = cfg.nv then 0 else v + 1) 0 ∧
      cfg.pos k' (if v + 1 = cfg.nv then 0 else v + 1) 0 = cfg.pos k v o + n ∧
      k' = (if v + 1 = cfg.nv then k + 1 else k) := by
  obtain ⟨hblock, hk, hv, ho⟩ := hat
  by_cases hvn : v + 1 = cfg.nv
  · rw [if_pos hvn, if_pos hvn, if_pos hvn]
    have hk' := succ_lt_of_room hvn hn hlt hroom ho
    refine ⟨k + 1, ⟨hnext hvn, hk', cfg.nv_pos, cfg.ns_pos⟩, ?_, rfl⟩
    have hcap : v * cfg.ns + cfg.ns = cfg.cap := by
      unfold Config.cap
      rw [← hvn]
      ring
    have hexp : (k + 1) * cfg.cap = k * cfg.cap + cfg.cap := by ring
    unfold Config.pos
    omega
  · rw [if_neg hvn, if_neg hvn, if_neg hvn]
    refine ⟨k, ⟨hblock, hk, by omega, cfg.ns_pos⟩, ?_, rfl⟩
    have hexp : (v + 1) * cfg.ns = v * cfg.ns + cfg.ns := by ring
    unfold Config.pos
    omega

theorem wPublish_ok (h : Inv cfg s g)
    (hl : Local cfg t s g (.wPublish w next)) :
    ∃ a, w.block = some a ∧ StepOk cfg t s g
      (s.modBlock a (·.addProduced w.vblock (w.count cfg)), .wSeg (w.advance cfg next)) := by
  obtain ⟨ho, hlk, hlt, _, k, hat, ⟨p, hjob, hstart⟩, hcop, hres, hroom, hnext⟩ := hl.here
  have hcount := w.count_le cfg
  have hoff := hat.2.2.2
  have hpos : 0 < w.count cfg := by
    unfold Write.count
    omega
  have hall : ∀ p, cfg.pos k w.vblock w.offset ≤ p →
      p < cfg.pos k w.vblock w.offset + w.count cfg → ∃ x, g.L.prod p = .copied t x := by
    intro p h1 h2
    obtain ⟨j, rfl⟩ : ∃ j, p = cfg.pos k w.vblock w.offset + j :=
      ⟨p - cfg.pos k w.vblock w.offset, by omega⟩
    exact ⟨w.src[w.moved + j], hcop j _ (by omega) (List.getElem?_eq_getElem (by omega))⟩
  obtain ⟨x, hx⟩ := hall (cfg.pos k w.vblock w.offset) (le_refl _) (by omega)
  obtain ⟨a, ha, hlive, _⟩ := filling_block h hpos hat (by
    rw [Nat.add_zero, hx]
    simp)
  refine ⟨a, ha, ?_⟩
  have hok := ok_publish h hlive hat.2.2.1 (o := w.offset) (n := w.count cfg) (by omega) hall
  have hne := ho.ne_chain hlive
  have hheap : ∀ b ∈ w.blocks, (s.modBlock a (·.addProduced w.vblock (w.count cfg))).heap b
      = s.heap b := fun b hb => update_of_ne (hne b hb) _ _
  have hjob' : Job t s { g with L := g.L.publish (cfg.pos k w.vblock w.offset) (w.count cfg) }
      w.src p (w.moved + w.count cfg) := by
    refine ⟨hjob.resv, fun j x hj => ?_, fun q v hq => ?_⟩
    · have hjx : j < w.moved + w.count cfg ∧ w.src[j]? = some x := by
        rw [List.getElem?_take] at hj
        split at hj
        · exact ⟨by assumption, hj⟩
        · cases hj
      obtain ⟨hjl, hjx⟩ := hjx
      by_cases hjm : j < w.moved
      · rw [Ledger.publish_prod_out _ (by omega)]
        apply hjob.sent j x
        rwa [List.getElem?_take_of_lt hjm]
      · -- the segment just published
        obtain ⟨i, rfl⟩ : ∃ i, j = w.moved + i := ⟨j - w.moved, by omega⟩
        have hcell := hcop i x (by omega) hjx
        rw [show p + (w.moved + i) = cfg.pos k w.vblock w.offset + i by omega,
          Ledger.publish_prod_in _ (by omega) (by omega), hcell]
        rfl
    · have hq' : (g.L.publish (cfg.pos k w.vblock w.offset) (w.count cfg)).prod q = .reserved t v ∨
          (g.L.publish (cfg.pos k w.vblock w.offset) (w.count cfg)).prod q = .copied t v := hq
      by_cases hin : cfg.pos k w.vblock w.offset ≤ q ∧
          q < cfg.pos k w.vblock w.offset + w.count cfg
      · obtain ⟨y, hy⟩ := hall q hin.1 hin.2
        rw [Ledger.publish_prod_in _ hin.1 hin.2, hy] at hq'
        rcases hq' with hq' | hq' <;> exact absurd hq' (by simp)
      · rw [Ledger.publish_prod_out _ hin] at hq'
        have := hjob.pending q v hq'
        omega
  refine ⟨_, hok, { hl with
    pending := fun hc => Bool.noConfusion hc
    here := ⟨ho.of_eq (fun _ _ => rfl) hheap, hlk.of_eq hheap, ?_, p, { hjob' with },
      fun hmore => ?_⟩ }⟩
  · show w.moved + w.count cfg ≤ w.src.length
    omega
  · have hmore' : w.moved + w.count cfg < w.src.length := hmore
    obtain ⟨k', hat', hpos', _⟩ := at_advance (n := w.count cfg) hat rfl
      (show w.count cfg < w.src.length - w.moved by omega) hroom (fun hv => hnext hv hmore')
    refine ⟨k', hat', ?_, ?_, ?_⟩
    · show cfg.pos k' (if w.vblock + 1 = cfg.nv then 0 else w.vblock + 1) 0
        = p + (w.moved + w.count cfg)
      omega
    · intro j x hj
      show (g.L.publish _ _).prod (cfg.pos k' (if w.vblock + 1 = cfg.nv then 0 else w.vblock + 1) 0
        + j) = .reserved t x
      rw [hpos', Ledger.publish_prod_out _ (by omega), Nat.add_assoc]
      apply hres (w.count cfg + j) x (by omega)
      rw [← Nat.add_assoc]
      simpa [Write.advance, List.getElem?_drop] using hj
    · show cfg.pos k' (if w.vblock + 1 = cfg.nv then 0 else w.vblock + 1) 0
        + (w.src.length - (w.moved + w.count cfg)) ≤ s.linked.length * cfg.cap
      rw [hpos']
      omega

theorem wDrop_ok (h : Inv cfg s g) {b : Addr} {rest : List Addr}
    (hl : Local cfg t s g (.wDrop w)) (hb : w.blocks = b :: rest) :
    StepOk cfg t s g (s.dealloc b, .wDrop { w with blocks := rest }) := by
  obtain ⟨ho, hm, a, hresv, hsent⟩ := hl.here
  have hk : Keeps t g w.blocks := hl.keeps rfl
  rw [hb] at ho hk
  refine ⟨_, ok_dealloc h (ho.2 b (by simp)).1, { hl with
    keeps := fun _ => ?_
    here := ⟨ho.dealloc, hm, a, hresv, hsent⟩ }⟩
  exact hk.lose (by simp) rfl fun a ha hab => (List.mem_cons.mp ha).resolve_left hab

end V8
