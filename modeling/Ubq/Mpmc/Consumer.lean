/-
# The steps of `pop_batch`

The reservation and the boundary of `pop_batch`, and the two loads of
`is_empty`.  A consumer computes the head it proposes from a snapshot of `chead`
and, without the hint, one load of `phead`.  If the snapshot is of the present
life of its block (`AbaFree`), what it proposes is covered by reservations, so
the check after the CAS never fires.
-/
import Ubq.Mpmc.Iterator

namespace Mpmc

variable {T : Type*} {cfg : Config} {t u : Tid} {s s' : Shared T} {g g' : Ghost T}
variable {w : PopWalk} {q : Pop} {chead : Head} {n m : ℕ}

/-- A `pop_batch` that reserved nothing. -/
theorem done_empty (s : Shared T) (g : Ghost T) (t : Tid) (size keep : ℕ) :
    Done s g t (.popBatch size keep) (.popped 0 []) :=
  ⟨[], 0, by simp, Nat.zero_le _, s.log.took_nil t 0⟩

/-! ## Reading the heads -/

/-- The block of an open `chead` is live. -/
theorem chead_live (h : Inv cfg s g) (hst : g.stage = .ready) (hi : s.chead.index < cfg.bl) :
    ∃ a, s.chead.block = some a ∧ s.linked[g.ck]? = some a ∧ g.owner a = .chain g.ck := by
  have hlt : g.ck < s.linked.length :=
    Nat.lt_of_le_of_lt h.ck_le (h.pk_lt (by rw [hst]; simp))
  obtain ⟨a, hget⟩ : ∃ a, s.linked[g.ck]? = some a := ⟨_, List.getElem?_eq_getElem hlt⟩
  obtain ⟨_, hpos⟩ := chead_index_le h hst
  exact ⟨a, (chead_block h hst).trans hget, hget, live_of_unclaimed h hget hi hpos.le⟩

/-- The token noted with an open `chead`. -/
theorem chead_token (h : Inv cfg s g) (hst : g.stage = .ready) (hi : s.chead.index < cfg.bl) :
    s.chead.block.elim 0 (tokenOf s.linked) = g.ck := by
  obtain ⟨a, hblock, _, hlive⟩ := chead_live h hst hi
  rw [hblock]
  exact h.chain.tokenOf hlive

/-- Two tokens of one address agree if the earlier one is live. -/
theorem token_eq (h : Inv cfg s g) {j k : ℕ} {a : Addr} (hj : s.linked[j]? = some a)
    (hk : g.owner a = .chain k) (hle : k ≤ j) : j = k :=
  h.chain.live_inj hj hk hle

/-- The block of `phead` while slots are left in it. -/
theorem phead_live (h : Inv cfg s g) (hst : g.stage ≠ .fresh) (hi : s.phead.index < cfg.bl) :
    ∃ a, s.phead.block = some a ∧ s.linked[g.pk]? = some a ∧ g.owner a = .chain g.pk := by
  obtain ⟨a, hget⟩ : ∃ a, s.linked[g.pk]? = some a :=
    ⟨_, List.getElem?_eq_getElem (h.pk_lt hst)⟩
  obtain ⟨_, hpos, _⟩ := phead_open h hi
  refine ⟨a, (phead_block h).trans hget, hget, live_of_not_published h hget hi fun x hx => ?_⟩
  have := h.ledger.reserved_lt (p := g.pk * cfg.bl + s.phead.index) (by simp [hx])
  omega

/-! ## The snapshot -/

theorem cLoad0_ok (h : Inv cfg s g) {size keep : ℕ} (hl : Local cfg t s g (.cLoad0 size keep)) :
    StepOk cfg t s g (if s.chead = Head.zero then ret s t (.popBatch size keep) (.popped 0 [])
      else (s, .cReload ⟨size, keep, size⟩)) := by
  have hu := hl.unlocked rfl rfl rfl rfl rfl
  split
  · exact ret_ok h hu hl.keeps (done_empty s g t size keep)
  · rename_i hz
    have hst : g.stage = .ready := by
      by_contra hc
      exact hz ((chead_zero_iff h).mpr hc)
    exact ⟨g, Ok.refl h, hu.toLocal rfl rfl rfl hl.keeps ⟨⟨hl.here, le_refl _⟩, hst⟩⟩

/-- The snapshot taken by a load of an open `chead`. -/
theorem snap_load (h : Inv cfg s g) (hst : g.stage = .ready) (hi : s.chead.index < cfg.bl) :
    Snap cfg t (see s t) g s.chead := by
  have hseen : (see s t).seen t = g.ck := by
    show Function.update s.seen t _ t = g.ck
    rw [Function.update_self]
    exact chead_token h hst hi
  obtain ⟨a, hblock, hget, _⟩ := chead_live h hst hi
  obtain ⟨_, hpos⟩ := chead_index_le h hst
  refine ⟨hst, ?_, hseen.le, ?_⟩
  · rw [hseen]
    exact ⟨hblock.trans hget.symm, (List.getElem?_eq_some_iff.mp hget).1, hi⟩
  · rw [hseen]
    exact hpos.ge

/-- Loading `chead`, at the start or after a failed CAS. -/
theorem cReload_ok (h : Inv cfg s g) (hu : Unlocked t g) (hk : Keeps t g [])
    (hq : PopOk q) (hst : g.stage = .ready) :
    StepOk cfg t s g (see s t, popLoop cfg q s.chead) := by
  obtain ⟨hle, _⟩ := chead_index_le h hst
  refine ⟨g, ok_see h, ?_⟩
  unfold popLoop popLoopWith
  split
  · exact hu.toLocal rfl rfl rfl hk ⟨hq, hst⟩
  · have hsnap := snap_load (t := t) h hst (by omega)
    split
    · rename_i hn
      exact hu.toLocal rfl rfl rfl hk ⟨hq, hsnap, rfl, rfl, fun _ => hn, fun hc => by
        rw [hn] at hc
        exact absurd hc (by simp)⟩
    · rename_i hn
      exact hu.toLocal rfl rfl rfl hk ⟨hq, hsnap, by simpa using hn⟩

/-- The load of `phead` that a proposal without the hint is computed from. -/
theorem cPhead_ok (h : Inv cfg s g)
    (hl : Local cfg t s g (.cPhead q chead)) :
    StepOk cfg t s g (if s.phead.block = chead.block then
        if min (s.phead.index - chead.index) q.len = 0 then
          ret s t (.popBatch q.size q.keep) (.popped 0 [])
        else (s, .cCas { q with len := min (s.phead.index - chead.index) q.len } chead
          ⟨chead.block, min cfg.bl (chead.index + min (s.phead.index - chead.index) q.len), false⟩)
      else (s, .cCas q chead ⟨chead.block, min cfg.bl (chead.index + q.len), true⟩)) := by
  obtain ⟨hq, hsnap, hn⟩ := hl.here
  have hu := hl.unlocked rfl rfl rfl rfl rfl
  have hle : s.seen t ≤ g.pk := hsnap.seen_le.trans h.ck_le
  have hpp := phead_le_ppos h
  have hblock := phead_block h
  split
  · rename_i heq
    split
    · exact ret_ok h hu hl.keeps (done_empty s g t q.size q.keep)
    · rename_i hlen
      refine ⟨g, Ok.refl h, hu.toLocal rfl rfl rfl hl.keeps
        ⟨⟨Nat.pos_of_ne_zero hlen, (Nat.min_le_right _ _).trans hq.2⟩, hsnap, rfl, rfl,
          fun hc => absurd hc (by simp [hn]), fun _ hlast => ⟨?_, nofun⟩⟩⟩
      -- the block has not been linked again, so `phead` is in it
      have hpk : s.seen t = g.pk := by
        by_contra hne
        have hlt : s.seen t < g.pk := by omega
        exact hlast g.pk hlt (hblock.symm.trans heq)
      rw [hpk]
      show g.pk * cfg.bl + min cfg.bl (chead.index + _) ≤ g.L.ppos
      have h1 := Nat.min_le_left (s.phead.index - chead.index) q.len
      have h2 := Nat.min_le_right cfg.bl
        (chead.index + min (s.phead.index - chead.index) q.len)
      omega
  · rename_i hne
    refine ⟨g, Ok.refl h, hu.toLocal rfl rfl rfl hl.keeps ⟨hq, hsnap, rfl, rfl, fun _ => rfl,
      fun _ _ => ?_⟩⟩
    have hlt : s.seen t < g.pk := by
      rcases Nat.eq_or_lt_of_le hle with heq | hlt
      · exact absurd (hblock.trans (heq ▸ hsnap.here.1.symm)) hne
      · exact hlt
    have hmul : (s.seen t + 1) * cfg.bl ≤ g.pk * cfg.bl := Nat.mul_le_mul_right _ hlt
    rw [succ_mul] at hmul
    refine ⟨?_, fun _ => hlt⟩
    show s.seen t * cfg.bl + min cfg.bl (chead.index + q.len) ≤ g.L.ppos
    have := Nat.min_le_left cfg.bl (chead.index + q.len)
    omega

/-! ## The claim -/

/-- A claim of `len` slots from position `k * bl + chead.index` on, before anything is read. -/
theorem iterStart_iterating {len k : ℕ} (hlen : 0 < len)
    (hle : len ≤ q.size) (hat : At cfg s k chead.block chead.index)
    (hplace : place cfg s' chead = k * cfg.bl + chead.index)
    (hholds : g.L.Holds t (k * cfg.bl + chead.index) len)
    (hcov : g.L.Covers t (k * cfg.bl + chead.index) len) :
    Iterating cfg t s g (iterStart cfg s' q chead len) := by
  have hiter : IterOk t s (iterStart cfg s' q chead len) :=
    ⟨s.log.took_nil t _, Nat.zero_add _, hlen, hle⟩
  refine ⟨rfl, hiter, ?_, fun _ => ⟨k, hiter, hlen, hat, hplace.symm, Nat.zero_le _,
    fun j hj => absurd hj (Nat.not_lt_zero _), hholds, ?_⟩⟩
  · show g.L.Covers t (place cfg s' chead) len
    rwa [hplace]
  · show g.L.Covers t (k * cfg.bl + (chead.index - 0)) (0 + len)
    rwa [Nat.sub_zero, Nat.zero_add]

section

variable (h : Inv cfg s g)

include h

/-- The position of a slot of a live block. -/
theorem place_eq {k : ℕ} {a : Addr} {hd : Head} (hb : hd.block = some a)
    (ha : g.owner a = .chain k) : place cfg s hd = k * cfg.bl + hd.index := by
  unfold place
  rw [hb]
  show tokenOf s.linked a * cfg.bl + hd.index = _
  rw [h.chain.tokenOf ha]

/-- The position of a claimed slot. -/
theorem At.place {k n : ℕ} {hd : Head} (hat : At cfg s k hd.block hd.index)
    (hn : 0 < n) (hholds : g.L.Holds t (k * cfg.bl + hd.index) n) :
    place cfg s hd = k * cfg.bl + hd.index := by
  obtain ⟨a, ha, hget⟩ := hat.block
  refine place_eq h ha (live_of_not_done h hget hat.2.2 ?_)
  have := hholds 0 hn
  rw [Nat.add_zero] at this
  rw [this]
  simp

/-- A won claim: into the boundary or to the iterator. -/
theorem claimedOn_ok {chead new : Head} {k : ℕ}
    (hinit : g.stage ≠ .opening t) (hprod : g.pown ≠ some t) (hidle : g.L.Pending t 0 0)
    (hkeeps : Keeps t g []) (hcons : g.cown = some t ↔ new.index = cfg.bl) (hq : PopOk q)
    (hidx : new.index = min cfg.bl (chead.index + q.len))
    (hat : At cfg s k chead.block chead.index)
    (hholds : g.L.Holds t (k * cfg.bl + chead.index) (new.index - chead.index))
    (hcov : g.L.Covers t (k * cfg.bl + chead.index) (new.index - chead.index))
    (hlock : new.index = cfg.bl → g.ck = k ∧ g.stage = .ready) :
    StepOk cfg t s g (claimedOn cfg s t q chead new) := by
  unfold claimedOn
  split
  · rename_i hfull
    obtain ⟨rfl, hst⟩ := hlock hfull
    rw [hfull] at hholds hcov
    refine ⟨g, Ok.refl h, ?_, ?_, ?_, fun _ => hidle, fun hc => absurd hc (by simp [Pc.reading]),
      hkeeps, hq, hst, hat, hholds, hcov, by omega⟩
    · simpa [Pc.holdsI] using hinit
    · simpa [Pc.holdsP] using hprod
    · simpa [Pc.holdsC] using hcons.mpr hfull
  · rename_i hpart
    have hlen : new.index - chead.index = q.len := by omega
    rw [hlen] at hholds hcov
    exact iterOn_ok h ⟨hinit, hprod, fun hc => hpart (hcons.mp hc), hidle⟩ hkeeps
      (iterStart_iterating hq.1 hq.2 hat (hat.place h hq.1 hholds) hholds hcov)

/-- A proposal made from the present head can be installed. -/
theorem proposal_ready {new : Head} (hsnap : Snap cfg t s g s.chead)
    (hprop : Proposal cfg t s g q s.chead new) (haba : s.chead.hasNext = false →
      s.chead.block.elim 0 (tokenOf s.linked) = s.seen t) :
    g.ck * cfg.bl + new.index ≤ g.L.ppos ∧ (new.hasNext = true → g.ck < g.pk) := by
  have hst := hsnap.ready
  have hi := hsnap.here.2.2
  cases hn : s.chead.hasNext with
  | true =>
    have hlt := (chead_open h hst hi).2 hn
    have hmul : (g.ck + 1) * cfg.bl ≤ g.pk * cfg.bl := Nat.mul_le_mul_right _ hlt
    rw [succ_mul] at hmul
    have hpp := phead_le_ppos h
    have hidx := hprop.index
    exact ⟨by omega, fun _ => hlt⟩
  | false =>
    obtain ⟨a, hblock, hget, hlive⟩ := chead_live h hst hi
    have hseen : s.seen t = g.ck := (haba hn).symm.trans (chead_token h hst hi)
    rw [← hseen]
    refine hprop.ahead hn fun j hj hc => ?_
    rw [hblock] at hc
    exact h.chain.last a g.ck hlive j (hseen ▸ hj) hc

theorem cCas_ok {chead new : Head}
    (hl : Local cfg t s g (.cCas q chead new)) (haba : AbaFree t s (.cCas q chead new))
    (heq : s.chead = chead) :
    StepOk cfg t s g (if chead.hasNext then
        claimedOn cfg { s with
          chead := new.word cfg
          log := s.log.claim t (place cfg s chead) (new.index - chead.index) } t q chead new
      else ({ s with
          chead := new.word cfg
          log := s.log.claim t (place cfg s chead) (new.index - chead.index) },
        .cPost q chead new)) := by
  obtain ⟨hq, hsnap, hprop⟩ := hl.here
  have hu := hl.unlocked rfl rfl rfl rfl rfl
  subst heq
  have hst := hsnap.ready
  have hi := hsnap.here.2.2
  obtain ⟨_, hpos⟩ := chead_index_le h hst
  obtain ⟨a, hblock, hget, hlive⟩ := chead_live h hst hi
  obtain ⟨hpp, hnext⟩ := proposal_ready h hsnap hprop (haba rfl)
  have hidx := hprop.index
  have hle : s.chead.index ≤ new.index := by
    have := hq.1
    omega
  have hplace : place cfg s s.chead = g.L.cpos := (place_eq h hblock hlive).trans hpos.symm
  have hword : new.word cfg = ⟨s.chead.block, new.index, new.hasNext && cfg.hint⟩ := by
    unfold Head.word
    rw [← hprop.block]
  have hat : At cfg s g.ck s.chead.block s.chead.index :=
    ⟨hblock.trans hget.symm, (List.getElem?_eq_some_iff.mp hget).1, hi⟩
  have hstep : Ok cfg t s g
      { s with
        chead := new.word cfg
        log := s.log.claim t (place cfg s s.chead) (new.index - s.chead.index) }
      { g with
        L := g.L.claim t (new.index - s.chead.index)
        cown := if new.index = cfg.bl then some t else none } := by
    rw [hplace, hword]
    refine ok_claim h hst hi hle (by omega) hpp (fun hc => hnext (Bool.and_eq_true_iff.mp hc).1) ?_
    by_cases hfull : new.index = cfg.bl
    · exact Or.inr ⟨hfull, if_pos hfull⟩
    · exact Or.inl ⟨by omega, if_neg hfull⟩
  have hcown : (if new.index = cfg.bl then some t else none : Option Tid) = some t ↔
      new.index = cfg.bl := by simp
  have hholds := Ledger.holds_claim g.L t (new.index - s.chead.index)
  have hcov := hu.covers.claim (new.index - s.chead.index)
  rw [hpos] at hholds hcov
  split
  · refine StepOk.after hstep
      (claimedOn_ok hstep.inv (k := g.ck) ?_ ?_ ?_ ?_ ?_ hq hidx hat ?_ ?_ ?_)
    · exact hu.init
    · exact hu.prod
    · exact hu.idle
    · exact hl.keeps
    · exact hcown
    · exact hholds
    · exact hcov
    · exact fun _ => ⟨rfl, hst⟩
  · refine ⟨_, hstep, ?_, ?_, ?_, fun _ => hu.idle, fun hc => absurd hc (by simp [Pc.reading]),
      hl.keeps, hq, hidx, g.ck, hat, hpp, hholds, hcov, fun _ => ⟨rfl, hst⟩⟩
    · simpa [Pc.holdsI] using hu.init
    · simpa [Pc.holdsP] using hu.prod
    · simp [Pc.holdsC]

/-- The check after the CAS never fires. -/
theorem cPost_ok {chead new : Head}
    (hl : Local cfg t s g (.cPost q chead new)) :
    ¬ (s.phead.block = chead.block ∧ s.phead.index < new.index) ∧
      StepOk cfg t s g (claimedOn cfg s t q chead new) := by
  obtain ⟨hq, hidx, k, hat, hpp, hholds, hcov, hlock⟩ := hl.here
  have hi := hat.2.2
  have hlen := hq.1
  refine ⟨?_, ?_⟩
  · rintro ⟨hblock, hlt⟩
    have hph : s.phead.index < cfg.bl := by omega
    obtain ⟨a, ha, hget⟩ := hat.block
    have hlive : g.owner a = .chain k := by
      apply live_of_not_done h hget hi
      have := hholds 0 (by omega)
      rw [Nat.add_zero] at this
      rw [this]
      simp
    have hst : g.stage ≠ .fresh := by
      intro hc
      have := hat.2.1
      simp [h.fresh_iff.mp hc] at this
    obtain ⟨b, hb, _, hblive⟩ := phead_live h hst hph
    obtain rfl : b = a := Option.some.inj (hb.symm.trans (hblock.trans ha))
    obtain rfl : g.pk = k := by
      rw [hlive] at hblive
      simpa using hblive.symm
    have := (phead_open h hph).2.1
    omega
  · refine claimedOn_ok h (fun hc => ?_) (fun hc => ?_) (hl.pending rfl) hl.keeps ?_ hq hidx hat
      hholds hcov hlock
    · exact absurd (hl.holdsI.mp hc) (by simp [Pc.holdsI])
    · exact absurd (hl.holdsP.mp hc) (by simp [Pc.holdsP])
    · rw [hl.holdsC]
      simp [Pc.holdsC]

end

/-! ## The boundary -/

section

variable (h : Inv cfg s g)

include h

/-- Inside the boundary, `phead` has passed the locked block. -/
theorem past_phead (hst : g.stage = .ready) (hown : g.cown = some t) :
    g.ck * cfg.bl + cfg.bl ≤ g.pk * cfg.bl + s.phead.index := by
  have hcp := cpos_locked h hst hown
  have hle := h.cpos_le
  have hmul : g.ck * cfg.bl ≤ g.pk * cfg.bl := Nat.mul_le_mul_right _ h.ck_le
  rcases Nat.lt_or_ge s.phead.index cfg.bl with hi | hi
  · have := (phead_open h hi).2.1
    omega
  · omega

theorem cWalk_ok
    (hl : Local cfg t s g (.cWalk q chead)) :
    StepOk cfg t s g (s, .cNext ⟨q, chead, s.phead, chead.block, chead.index, q.len⟩) := by
  have hk : Locked cfg t s g q chead := hl.here
  refine ⟨g, Ok.refl h, { hl with here := ⟨g.ck, g.pk, ?_⟩ }⟩
  exact {
    locked := hk
    here := hk.here
    ck_le := le_refl _
    le := h.ck_le
    le_pk := le_refl _
    block := phead_block h
    index_le := phead_index_le h
    le_ppos := phead_le_ppos h
    past := past_phead h hk.ready (hl.holdsC.mpr rfl)
    rest := rfl
    first := fun _ => rfl
    later := fun hc => absurd hc (lt_irrefl _) }

/-- The block at which the walk stands is live. -/
theorem scanning_block (hown : g.cown = some t)
    (hs : Scanning cfg t s g w n m) :
    ∃ a, w.block = some a ∧ s.linked[n]? = some a ∧ g.owner a = .chain n := by
  obtain ⟨a, ha, hget⟩ := hs.here.block
  refine ⟨a, ha, hget, ?_⟩
  rcases Nat.eq_or_lt_of_le hs.ck_le with rfl | hlt
  · -- the rest of the locked block is claimed, not completed
    apply live_of_not_done h hget hs.locked.here.2.2
    have := hs.locked.holds 0 (by have := hs.locked.here.2.2; omega)
    rw [Nat.add_zero] at this
    rw [this]
    simp
  · have hcp := cpos_locked h hs.locked.ready hown
    have hmul : (g.ck + 1) * cfg.bl ≤ n * cfg.bl := Nat.mul_le_mul_right _ hlt
    rw [succ_mul] at hmul
    exact live_of_unclaimed h hget cfg.bl_pos (by omega)

/-- The block of the `phead` that was read is the block of the walk exactly if
the walk has reached it. -/
theorem scanning_block_iff (hown : g.cown = some t)
    (hs : Scanning cfg t s g w n m) : w.phead.block = w.block ↔ n = m := by
  obtain ⟨a, ha, hget, hlive⟩ := scanning_block h hown hs
  rw [hs.block, ha]
  constructor
  · exact fun hm => (token_eq h hm hlive hs.le).symm
  · rintro rfl
    exact hget

/-- On to the next block, or to the store. -/
theorem popWalkOn_ok (hl : Local cfg t s g (.cNext2 w))
    (hs : Scanning cfg t s g w n m) (hlt : n < m) {next : Option Addr}
    (hn : next = s.linked[n + 1]?) : StepOk cfg t s g (s, popWalkOn cfg w next) := by
  have hi := hs.here.2.2
  have hrest := hs.rest
  refine ⟨g, Ok.refl h, ?_⟩
  show Local cfg t s g (popWalkOn cfg w next)
  unfold popWalkOn
  split
  · exact { hl with here := ⟨n, m, hs, hlt, by omega⟩ }
  · refine { hl with here := ⟨n + 1, m, ?_⟩ }
    have hpk := h.pk_lt (by rw [hs.locked.ready]; simp)
    have hle := hs.le_pk
    have hck := hs.ck_le
    exact { hs with
      here := ⟨hn, by omega, cfg.bl_pos⟩
      ck_le := by omega
      le := hlt
      rest := by
        show (n + 1) * cfg.bl + (0 + (w.remaining - (cfg.bl - w.index))) = _
        rw [succ_mul, ← hrest]
        omega
      first := fun hc => by omega
      later := fun _ => rfl }

theorem cNext_ok (hl : Local cfg t s g (.cNext w)) :
    ∃ a, w.block = some a ∧ StepOk cfg t s g
      (s, if w.phead.block = w.block then
          if w.phead.index = cfg.bl then .cSpin w else .cStoreP w
        else popWalkOn cfg w (s.heap a).next) := by
  obtain ⟨n, m, hs⟩ := hl.here
  have hown : g.cown = some t := hl.holdsC.mpr rfl
  obtain ⟨a, ha, _, hlive⟩ := scanning_block h hown hs
  have hiff := scanning_block_iff h hown hs
  refine ⟨a, ha, ?_⟩
  split
  · rename_i hb
    obtain rfl := hiff.mp hb
    split
    · exact ⟨g, Ok.refl h, { hl with here := ⟨n, hs⟩ }⟩
    · have := hs.index_le
      exact ⟨g, Ok.refl h, { hl with here := ⟨n, hs, by omega⟩ }⟩
  · rename_i hb
    have hle := hs.le
    have hlt : n < m := by
      rcases Nat.eq_or_lt_of_le hle with heq | hlt
      · exact absurd (hiff.mpr heq) hb
      · exact hlt
    exact popWalkOn_ok h { hl with here := ⟨n, m, hs, hlt⟩ } hs hlt (h.chain.link a n hlive)

/-- Reading `phead` again. -/
theorem Scanning.reload (hown : g.cown = some t)
    (hs : Scanning cfg t s g w n m) : Scanning cfg t s g { w with phead := s.phead } n g.pk where
  locked := hs.locked
  here := hs.here
  ck_le := hs.ck_le
  le := hs.le.trans hs.le_pk
  le_pk := le_refl _
  block := phead_block h
  index_le := phead_index_le h
  le_ppos := phead_le_ppos h
  past := past_phead h hs.locked.ready hown
  rest := hs.rest
  first := hs.first
  later := hs.later

theorem cSpin_ok (hl : Local cfg t s g (.cSpin w)) :
    StepOk cfg t s g
      (s, if s.phead.block = w.block then
          if s.phead.index = cfg.bl then .cSpin { w with phead := s.phead }
          else .cStoreP { w with phead := s.phead }
        else .cNext2 { w with phead := s.phead }) := by
  obtain ⟨n, hs⟩ := hl.here
  have hown : g.cown = some t := hl.holdsC.mpr rfl
  have hs' := hs.reload h hown
  have hiff := scanning_block_iff h hown hs'
  split
  · rename_i hb
    have hn : n = g.pk := hiff.mp hb
    rw [← hn] at hs'
    split
    · exact ⟨g, Ok.refl h, { hl with here := ⟨n, hs'⟩ }⟩
    · have := phead_index_le h
      exact ⟨g, Ok.refl h, { hl with here := ⟨n, hs', by show s.phead.index < _; omega⟩ }⟩
  · rename_i hb
    have hle := hs'.le
    refine ⟨g, Ok.refl h, { hl with here := ⟨n, g.pk, hs', ?_⟩ }⟩
    rcases Nat.eq_or_lt_of_le hle with heq | hlt
    · exact absurd (hiff.mpr heq) hb
    · exact hlt

theorem cNext2_ok (hl : Local cfg t s g (.cNext2 w)) :
    ∃ a, w.block = some a ∧ StepOk cfg t s g (s, popWalkOn cfg w (s.heap a).next) := by
  obtain ⟨n, m, hs, hlt⟩ := hl.here
  obtain ⟨a, ha, _, hlive⟩ := scanning_block h (hl.holdsC.mpr rfl) hs
  exact ⟨a, ha, popWalkOn_ok h hl hs hlt (h.chain.link a n hlive)⟩

/-- **The store that ends the boundary**, at slot `off` of the block `n`. -/
theorem settled_ok {n m off len : ℕ} {f : Bool} {pc : Pc T}
    (hl : Local cfg t s g pc) (hI : pc.holdsI = false) (hP : pc.holdsP = false)
    (hC : pc.holdsC cfg = true) (hW : pc.writing = false) (hkeeps : Keeps t g [])
    (hs : Scanning cfg t s g w n m) (hlt : g.ck < n) (hoff : off < cfg.bl)
    (hpp : n * cfg.bl + off ≤ g.L.ppos)
    (hf : f = true → n < g.pk)
    (hlen : g.ck * cfg.bl + w.chead.index + len = n * cfg.bl + off) (hle : len ≤ w.q.len) :
    StepOk cfg t s g (settled cfg t s w ⟨w.block, off, f⟩ len) := by
  have hk := hs.locked
  have hown : g.cown = some t := hl.holdsC.mpr hC
  have hcp := cpos_locked h hk.ready hown
  have hi := hk.here.2.2
  have hmul : (g.ck + 1) * cfg.bl ≤ n * cfg.bl := Nat.mul_le_mul_right _ hlt
  rw [succ_mul] at hmul
  have hplace' := hk.here.place h (by omega) hk.holds
  have hplace : place cfg s w.chead + (cfg.bl - w.chead.index) = g.L.cpos := by omega
  have hrest : len - (cfg.bl - w.chead.index) = n * cfg.bl + off - g.L.cpos := by omega
  have hok := ok_settle (f := f && cfg.hint) h hk.ready hown hs.ck_le (hs.le.trans hs.le_pk) hoff
    (by omega) hpp (fun hc => hf (Bool.and_eq_true_iff.mp hc).1)
  have hword : Head.word cfg ⟨w.block, off, f⟩ = ⟨s.linked[n]?, off, f && cfg.hint⟩ := by
    rw [← hs.here.1]
    rfl
  have hholds := hk.holds.claim (n := n * cfg.bl + off - g.L.cpos) (by omega)
  have hcov := hk.covers.extend (n := n * cfg.bl + off - g.L.cpos) (by omega)
  rw [show cfg.bl - w.chead.index + (n * cfg.bl + off - g.L.cpos) = len by omega]
    at hholds hcov
  unfold settled
  dsimp only
  rw [hplace, hrest, hword]
  refine StepOk.after hok (iterOn_ok hok.inv ⟨fun hc => ?_, fun hc => ?_, by simp, ?_⟩ hkeeps
    (iterStart_iterating (k := g.ck) (by omega) (hle.trans hk.pop.2) hk.here hplace' ?_ ?_))
  · simp [hl.holdsI.mp hc] at hI
  · simp [hl.holdsP.mp hc] at hP
  · exact hl.pending hW
  · exact hholds
  · exact hcov

end

/-- A walk that has reached `phead` has left the locked block, and ends with at
least the rest of that block. -/
theorem cStoreP_len {n : ℕ} (hs : Scanning cfg t s g w n n)
    (hidx : w.phead.index < cfg.bl) :
    0 < w.q.len - (w.remaining - min (w.phead.index - w.index) w.remaining) ∧ g.ck < n := by
  have hpast := hs.past
  have hlt : g.ck < n := by
    rcases Nat.eq_or_lt_of_le hs.ck_le with rfl | hlt
    · omega
    · exact hlt
  have hrest := hs.rest
  have hmul : (g.ck + 1) * cfg.bl ≤ n * cfg.bl := Nat.mul_le_mul_right _ hlt
  rw [succ_mul] at hmul
  have hi := hs.locked.here.2.2
  exact ⟨by omega, hlt⟩

theorem cStoreP_ok (h : Inv cfg s g) (hl : Local cfg t s g (.cStoreP w)) :
    StepOk cfg t s g (settled cfg t s w
      ⟨w.block, min w.phead.index (w.index + w.remaining), false⟩
      (w.q.len - (w.remaining - min (w.phead.index - w.index) w.remaining))) := by
  obtain ⟨n, hs, hidx⟩ := hl.here
  obtain ⟨_, hlt⟩ := cStoreP_len hs hidx
  have hzero := hs.later hlt
  have hrest := hs.rest
  have hpp := hs.le_ppos
  have hmul : (g.ck + 1) * cfg.bl ≤ n * cfg.bl := Nat.mul_le_mul_right _ hlt
  rw [succ_mul] at hmul
  have hi := hs.locked.here.2.2
  exact settled_ok h hl rfl rfl rfl rfl hl.keeps hs hlt (by omega) (by omega)
    nofun (by omega) (by omega)

theorem cStoreN_ok (h : Inv cfg s g) (hl : Local cfg t s g (.cStoreN w)) :
    StepOk cfg t s g (settled cfg t s w ⟨w.block, w.index + w.remaining, true⟩ w.q.len) := by
  obtain ⟨n, m, hs, hnm, hidx⟩ := hl.here
  have hrest := hs.rest
  -- the claim does not fit into the locked block, so the walk has left it
  have hlt : g.ck < n := by
    rcases Nat.eq_or_lt_of_le hs.ck_le with rfl | hlt
    · have h1 := hs.first rfl
      have h2 := hs.locked.full
      omega
    · exact hlt
  have hmul : (n + 1) * cfg.bl ≤ m * cfg.bl := Nat.mul_le_mul_right _ hnm
  rw [succ_mul] at hmul
  have hpp := hs.le_ppos
  exact settled_ok h hl rfl rfl rfl rfl hl.keeps hs hlt hidx (by omega)
    (fun _ => Nat.lt_of_lt_of_le hnm hs.le_pk) (by omega) (le_refl _)

end Mpmc
