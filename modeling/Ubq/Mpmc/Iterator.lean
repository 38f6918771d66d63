/-
# The steps of `UBQIter`

An iterator reads the slots of its claim one by one.  At the end of a block, or
of the claim, it adds the slots it has read there to `consumed`; the thread that
brings the counter to the block length recycles the block: a standalone page is
reset and offered to the pool, a page of a run is freed.
-/
import Ubq.Mpmc.Producer

namespace Mpmc

open Function

variable {T : Type*} {cfg : Config} {t u : Tid} {s s' : Shared T} {g g' : Ghost T}
variable {it : Iter T} {a : Addr} {k : ℕ}

/-! ## Threads that hold no head -/

/-- `t` is not initialising the queue, holds neither head and owes no publication. -/
structure Reader (t : Tid) (g : Ghost T) : Prop where
  init : g.stage ≠ .opening t
  prod : g.pown ≠ some t
  cons : g.cown ≠ some t
  idle : g.L.Pending t 0 0

theorem Local.reader {pc : Pc T} (h : Local cfg t s g pc) (hI : pc.holdsI = false)
    (hP : pc.holdsP = false) (hC : pc.holdsC cfg = false) (hW : pc.writing = false) :
    Reader t g := by
  refine ⟨fun hc => ?_, fun hc => ?_, fun hc => ?_, h.pending hW⟩
  · simp [h.holdsI.mp hc] at hI
  · simp [h.holdsP.mp hc] at hP
  · simp [h.holdsC.mp hc] at hC

theorem Reader.toLocal {pc : Pc T} (h : Reader t g) (hI : pc.holdsI = false)
    (hP : pc.holdsP = false) (hC : pc.holdsC cfg = false) (hR : pc.reading = true)
    (hk : Keeps t g pc.owns) (hh : At.Pc cfg t s g pc) : Local cfg t s g pc := by
  refine ⟨?_, ?_, ?_, fun _ => h.idle, fun hc => ?_, hk, hh⟩
  · simp [hI, h.init]
  · simp [hP, h.prod]
  · simp [hC, h.cons]
  · simp [hR] at hc

/-! ## Between two segments -/

theorem IterOk.of_eq (h : IterOk t s it) (hlog : s'.log = s.log) : IterOk t s' it :=
  ⟨hlog ▸ h.took, h.count, h.pos, h.le⟩

/-- An iterator only looks at the history and the ledger. -/
theorem Iterating.of_eq (h : Iterating cfg t s g it) (hlog : s'.log = s.log)
    (hlk : s'.linked = s.linked) (hL : g'.L = g.L) : Iterating cfg t s' g' it := by
  obtain ⟨hp, hb, hc, hr⟩ := h
  refine ⟨hp, hb.of_eq hlog, hL ▸ hc, fun hlen => ?_⟩
  obtain ⟨k, hk⟩ := hr hlen
  have hat : At cfg s' k it.block it.index := by
    unfold At
    rw [hlk]
    exact hk.here
  exact ⟨k, hk.iter.of_eq hlog, hk.left, hat, hk.pos, hk.pending_le, hL ▸ hk.taken,
    hL ▸ hk.holds, hL ▸ hk.covers⟩

/-- The top of the loop of `UBQIter::next`. -/
theorem iterOn_ok (h : Inv cfg s g) (hu : Reader t g) (hk : Keeps t g [])
    (hit : Iterating cfg t s g it) : StepOk cfg t s g (iterOn s t it) := by
  obtain ⟨hp, hb, hc, hr⟩ := hit
  unfold iterOn
  split
  · rename_i hlen
    rw [hlen] at hc
    have hcount := hb.count
    have hout : it.reserved = it.out.length := by omega
    refine ret_ok h { hu with covers := hc.none } hk
      ⟨it.out, it.base, ?_, ?_, hb.took⟩
    · rw [hout]
    · rw [← hout]
      exact hb.le
  · exact ⟨g, Ok.refl h, hu.toLocal rfl rfl rfl rfl hk (hr (by omega))⟩

/-! ## Reading a slot -/

/-- The block an iterator reads from is live. -/
theorem reading_block (h : Inv cfg s g) (hr : Reading cfg t s g it k) :
    ∃ a, it.block = some a ∧ s.linked[k]? = some a ∧ g.owner a = .chain k := by
  obtain ⟨a, ha, hget⟩ := hr.here.block
  refine ⟨a, ha, hget, live_of_not_done h hget hr.here.2.2 ?_⟩
  have := hr.holds 0 hr.left
  rw [Nat.add_zero] at this
  rw [this]
  simp

/-- A slot is blank until its item is published, and then contains it. -/
theorem slot_cases (h : Inv cfg s g) {k i : ℕ} (ha : g.owner a = .chain k)
    (hi : i < cfg.bl) :
    ((s.heap a).slots i).state = .zero ∨
      ∃ v, g.L.prod (k * cfg.bl + i) = .published (some v) ∧
        ((s.heap a).slots i).state = .written ∧ ((s.heap a).slots i).value = some v := by
  have hc := h.content a k ha
  by_cases hp : ∃ x, g.L.prod (k * cfg.bl + i) = .published x
  · obtain ⟨x, hx⟩ := hp
    cases x with
    | none =>
      have := h.present (k * cfg.bl + i)
      rw [hx] at this
      exact absurd rfl this
    | some v =>
      have hhas := hc.filled i (some v) hi hx
      exact Or.inr ⟨v, hx, hhas.1, hhas.2⟩
  · exact Or.inl (hc.blank i hi fun x hx => hp ⟨x, hx⟩)

/-- The value read from the next slot is appended to `out`. -/
theorem IterOk.take (h : IterOk t s it) (hlen : 0 < it.len) (v : T)
    {p : ℕ} (hp : p = it.base + it.out.length) (hlog : s'.log = s.log.deliver t p (some v)) :
    IterOk t s' { it with
      out := it.out ++ [v], index := it.index + 1, len := it.len - 1
      pending := it.pending + 1 } := by
  have hcount := h.count
  refine ⟨?_, ?_, h.pos, h.le⟩
  · have := h.took.snoc (some v)
    rw [List.length_map, ← hp, ← hlog] at this
    simpa using this
  · show (it.out ++ [v]).length + (it.len - 1) = it.reserved
    rw [List.length_append, List.length_singleton]
    omega

theorem iRead_take_ok (h : Inv cfg s g) {v : T}
    (hu : Reader t g) (hk : Keeps t g []) (hr : Reading cfg t s g it k)
    (hblock : it.block = some a) (hget : s.linked[k]? = some a) (hlive : g.owner a = .chain k)
    (hv : g.L.prod (k * cfg.bl + it.index) = .published (some v)) :
    StepOk cfg t s g (iterRead cfg
      { s.modBlock a (·.setSlot it.index { (s.heap a).slots it.index with read := true }) with
        log := s.log.deliver t (k * cfg.bl + it.index) (some v) }
      { it with out := it.out ++ [v] } a) := by
  have hi := hr.here.2.2
  have hlen := hr.left
  have hle := hr.pending_le
  have hpos := hr.pos
  have hclaimed : g.L.cons (k * cfg.bl + it.index) = .claimed t := by
    simpa using hr.holds 0 hlen
  have hok := ok_take h hlive hi hclaimed hv
  have hiter : IterOk t
      { s.modBlock a (·.setSlot it.index { (s.heap a).slots it.index with read := true }) with
        log := s.log.deliver t (k * cfg.bl + it.index) (some v) }
      { it with
        out := it.out ++ [v], index := it.index + 1, len := it.len - 1
        pending := it.pending + 1 } := hr.iter.take hlen v hpos rfl
  have hout : (it.out ++ [v]).length = it.out.length + 1 := by simp
  have htaken : (g.L.take t (k * cfg.bl + it.index)).Taken t
      (k * cfg.bl + (it.index + 1 - (it.pending + 1))) (it.pending + 1) := by
    have := hr.taken.take
    rwa [show k * cfg.bl + (it.index - it.pending) + it.pending = k * cfg.bl + it.index by omega,
      show it.index - it.pending = it.index + 1 - (it.pending + 1) by omega] at this
  have hholds := hr.holds.take
  have hcovers : (g.L.take t (k * cfg.bl + it.index)).Covers t
      (k * cfg.bl + (it.index + 1 - (it.pending + 1))) (it.pending + 1 + (it.len - 1)) := by
    have := hr.covers.take hclaimed
    rwa [show it.index - it.pending = it.index + 1 - (it.pending + 1) by omega,
      show it.pending + it.len = it.pending + 1 + (it.len - 1) by omega] at this
  have hu' : Reader t { g with L := g.L.take t (k * cfg.bl + it.index) } :=
    ⟨hu.init, hu.prod, hu.cons, hu.idle⟩
  dsimp only [iterRead]
  split
  · rename_i hend
    refine ⟨_, hok, hu'.toLocal rfl rfl rfl rfl hk ⟨k, ⟨hiter, hr.here.2.1, ?_, le_refl _,
      Nat.succ_pos _, ?_, hend ▸ htaken, hend ▸ hcovers, fun hl => ⟨rfl, ?_⟩⟩,
      hblock.trans hget.symm⟩⟩
    · show k * cfg.bl + cfg.bl = it.base + (it.out ++ [v]).length
      omega
    · show it.pending + 1 ≤ cfg.bl
      omega
    · rwa [show k * cfg.bl + cfg.bl = k * cfg.bl + it.index + 1 by omega]
  · rename_i hend
    split
    · rename_i hlast
      refine ⟨_, hok, hu'.toLocal rfl rfl rfl rfl hk ⟨k, it.index + 1, ⟨hiter, hr.here.2.1, ?_, ?_,
        Nat.succ_pos _, ?_, htaken, hcovers, fun hl => ?_⟩, hget, fun hl => ?_⟩⟩
      · show k * cfg.bl + (it.index + 1) = it.base + (it.out ++ [v]).length
        omega
      · show it.index + 1 ≤ cfg.bl
        omega
      · show it.pending + 1 ≤ it.index + 1
        omega
      · have : 0 < it.len - 1 := hl
        omega
      · have : 0 < it.len - 1 := hl
        omega
    · rename_i hmore
      have hat : At cfg { s.modBlock a (·.setSlot it.index
          { (s.heap a).slots it.index with read := true }) with
            log := s.log.deliver t (k * cfg.bl + it.index) (some v) } k it.block
          (it.index + 1) := ⟨hr.here.1, hr.here.2.1, by omega⟩
      refine ⟨_, hok, hu'.toLocal rfl rfl rfl rfl hk ⟨k, hiter, ?_, hat, ?_, ?_, htaken, hholds,
        hcovers⟩⟩
      · show 0 < it.len - 1
        omega
      · show k * cfg.bl + (it.index + 1) = it.base + (it.out ++ [v]).length
        omega
      · show it.pending + 1 ≤ it.index + 1
        omega

/-! ## Counting a segment -/

/-- The block of a segment that is not counted yet is live. -/
theorem counting_block (h : Inv cfg s g) {k e : ℕ}
    (hc : Counting cfg t s g it k e) (hget : s.linked[k]? = some a) : g.owner a = .chain k := by
  have hpos := hc.pending_pos
  have hle := hc.pending_le
  have he := hc.le
  apply live_of_not_done h (i := e - it.pending) hget (by omega)
  have := hc.taken 0 hpos
  rw [Nat.add_zero] at this
  rw [this]
  simp

theorem iNext_ok (h : Inv cfg s g) (hl : Local cfg t s g (.iNext it)) :
    ∃ a, it.block = some a ∧
      StepOk cfg t s g (s, .iConsume { it with block := (s.heap a).next, index := 0 } a) := by
  obtain ⟨k, hc, hblock⟩ := hl.here
  obtain ⟨a, hget⟩ : ∃ a, s.linked[k]? = some a := ⟨_, List.getElem?_eq_getElem hc.lt⟩
  have hlive := counting_block h hc hget
  refine ⟨a, hblock.trans hget, g, Ok.refl h, (hl.reader rfl rfl rfl rfl).toLocal rfl rfl rfl rfl
    hl.keeps ⟨k, cfg.bl, { hc with iter := ⟨hc.iter.took, hc.iter.count, hc.iter.pos, hc.iter.le⟩
      }, hget,
      fun _ => ⟨h.chain.link a k hlive, rfl⟩⟩⟩

/-- The iterator after its segment has been counted. -/
theorem Counting.iterating {k e : ℕ} (hc : Counting cfg t s g it k e)
    (hI : Inv cfg s g) (hm : 0 < it.len → it.block = s.linked[k + 1]? ∧ it.index = 0)
    (hlog : s'.log = s.log) (hlk : s'.linked = s.linked)
    (hL : g'.L = g.L.complete (k * cfg.bl + (e - it.pending)) it.pending) :
    Iterating cfg t s' g' { it with pending := 0 } := by
  have hpos := hc.pos
  have hle := hc.pending_le
  have hcov : g'.L.Covers t (k * cfg.bl + e) it.len := by
    have := hc.covers.complete
    rwa [← hL, show k * cfg.bl + (e - it.pending) + it.pending = k * cfg.bl + e by omega] at this
  have hiter : IterOk t s' { it with pending := 0 } :=
    ⟨hlog ▸ hc.iter.took, hc.iter.count, hc.iter.pos, hc.iter.le⟩
  refine ⟨rfl, hiter, ?_, fun hl => ?_⟩
  · rwa [← hpos]
  · obtain ⟨he, hholds⟩ := hc.more hl
    obtain ⟨hblock, hidx⟩ := hm hl
    subst he
    refine ⟨k + 1, hiter, hl, ⟨?_, ?_, ?_⟩, ?_, Nat.zero_le _, fun j hj => ?_, fun j hj => ?_, ?_⟩
    · rwa [hlk]
    · rw [hlk]
      exact hc.succ_lt hI hl
    · rw [hidx]
      exact cfg.bl_pos
    · rwa [hidx, succ_mul]
    · exact absurd hj (Nat.not_lt_zero _)
    · rw [hL, hidx, succ_mul, Ledger.complete_cons_out _ (by omega)]
      exact hholds j hj
    · rwa [hidx, succ_mul, Nat.zero_add]

/-- A block that is counted completely has nothing left to read or to drop. -/
theorem Content.finished {L : Ledger Tid (Option T)} {b : Block T}
    (h : Content cfg L k b) (hb : b.consumed = cfg.bl) :
    (∀ i, i < cfg.bl → L.cons (k * cfg.bl + i) = .done) ∧ b.Spent cfg ∧ b.drops cfg = [] := by
  have htally := h.consumed
  rw [hb] at htally
  have hall := tally_eq_iff.mp htally.symm
  have hdone : ∀ i, i < cfg.bl → L.cons (k * cfg.bl + i) = .done :=
    fun i hi => Ledger.CCell.isDone_iff.mp (hall _ (by omega) (by omega))
  refine ⟨hdone, fun i hi => h.spent i hi (Or.inr (hdone i hi)), ?_⟩
  unfold Block.drops
  rw [hb, Nat.sub_self]
  rfl

theorem iConsume_ok (h : Inv cfg s g)
    (hl : Local cfg t s g (.iConsume it a)) :
    StepOk cfg t s g (if (s.heap a).consumed + it.pending = cfg.bl then
        if (s.heap a).run.isNone then
          (s.modBlock a (·.addConsumed it.pending), .iReset { it with pending := 0 } a)
        else (s.modBlock a (·.addConsumed it.pending), .iFree { it with pending := 0 } a)
      else iterOn (s.modBlock a (·.addConsumed it.pending)) t { it with pending := 0 }) := by
  obtain ⟨k, e, hc, hget, hm⟩ := hl.here
  have hu := hl.reader rfl rfl rfl rfl
  have hk : Keeps t g [] := hl.keeps
  have hlive := counting_block h hc hget
  have hself : (s.modBlock a (·.addConsumed it.pending)).heap a
      = (s.heap a).addConsumed it.pending := update_self _ _ _
  -- the counter after the step is a tally, whichever way the step goes
  have hcnt := content_complete h hlive hc.pending_le hc.le hc.taken
  have hit : ∀ owner', Iterating cfg t (s.modBlock a (·.addConsumed it.pending))
      { g with
        L := g.L.complete (k * cfg.bl + (e - it.pending)) it.pending, owner := owner' }
      { it with pending := 0 } := fun owner' => hc.iterating h hm rfl rfl rfl
  have hu' : ∀ owner', Reader t { g with
      L := g.L.complete (k * cfg.bl + (e - it.pending)) it.pending, owner := owner' } :=
    fun owner' => ⟨hu.init, hu.prod, hu.cons, hu.idle⟩
  split
  · rename_i hfull
    obtain ⟨hdone, hspent, hdrops⟩ := hcnt.finished hfull
    have hok := ok_complete h hlive hc.pending_le hc.le hc.taken (.leaves hdone)
    split
    · exact ⟨_, hok, (hu' _).toLocal rfl rfl rfl rfl (hk.gain a rfl)
        ⟨update_self _ _ _, by rw [hself]; exact hspent, hit _⟩⟩
    · exact ⟨_, hok, (hu' _).toLocal rfl rfl rfl rfl (hk.gain a rfl)
        ⟨update_self _ _ _, by rw [hself]; exact hspent, by rw [hself]; exact hdrops,
          hit _⟩⟩
  · have hlt : ((s.heap a).addConsumed it.pending).consumed < cfg.bl := by
      have h1 := hcnt.consumed
      have h2 := tally_le (fun p =>
        ((g.L.complete (k * cfg.bl + (e - it.pending)) it.pending).cons p).isDone)
        (k * cfg.bl) cfg.bl
      have h3 : ((s.heap a).addConsumed it.pending).consumed
          = (s.heap a).consumed + it.pending := rfl
      omega
    have hok := ok_complete h hlive hc.pending_le hc.le hc.taken (.stays hlt)
    exact StepOk.after hok (iterOn_ok hok.inv (hu' _) hk (hit _))

/-! ## Recycling -/

theorem iReset_ok (h : Inv cfg s g)
    (hl : Local cfg t s g (.iReset it a)) :
    StepOk cfg t s g (s.modBlock a (·.reset), .iPool it a) := by
  obtain ⟨ho, _, hit⟩ := hl.here
  have hself : (s.modBlock a (·.reset)).heap a = (s.heap a).reset := update_self _ _ _
  refine ⟨g, ok_modBlock h ho _ rfl, (hl.reader rfl rfl rfl rfl).toLocal rfl rfl rfl rfl hl.keeps
    ⟨ho, ?_, ?_, hit.of_eq rfl rfl rfl⟩⟩
  · rw [hself]
    exact ⟨rfl, fun _ => rfl⟩
  · rw [hself]
    rfl

theorem Block.Clean.spent {b : Block T} (h : b.Clean) : b.Spent cfg := by
  intro i _ hc
  simp [h.2 i] at hc

theorem iPool_ok (h : Inv cfg s g) (hl : Local cfg t s g (.iPool it a)) :
    StepOk cfg t s g (if s.pool.isNone then iterOn { s with pool := some a } t it
      else (s, .iFree it a)) := by
  obtain ⟨ho, hclean, hnext, hit⟩ := hl.here
  have hu := hl.reader rfl rfl rfl rfl
  split
  · rename_i hp
    have hok := ok_putPool h (Option.isNone_iff_eq_none.mp hp) ho hclean hnext
    exact StepOk.after hok (iterOn_ok hok.inv ⟨hu.init, hu.prod, hu.cons, hu.idle⟩
      (hl.keeps.lose (by simp) rfl fun b hb hne => absurd (List.mem_singleton.mp hb) hne)
      (hit.of_eq rfl rfl rfl))
  · exact ⟨g, Ok.refl h, hu.toLocal rfl rfl rfl rfl hl.keeps
      ⟨ho, hclean.spent, hclean.drops, hit⟩⟩

theorem iFree_ok (h : Inv cfg s g) (hl : Local cfg t s g (.iFree it a)) :
    StepOk cfg t s g (iterOn (s.free cfg a) t it) := by
  obtain ⟨ho, _, hdrops, hit⟩ := hl.here
  have hu := hl.reader rfl rfl rfl rfl
  have hok := ok_free h ho hdrops
  exact StepOk.after hok (iterOn_ok hok.inv ⟨hu.init, hu.prod, hu.cons, hu.idle⟩
    (hl.keeps.lose (by simp) rfl fun b hb hne => absurd (List.mem_singleton.mp hb) hne)
    (hit.of_eq rfl rfl rfl))

end Mpmc
