/-
# The steps of `push_batch`

One lemma for each program counter of `push_batch`: the step keeps the proof
outline.  The reservation only needs what it compares: if `phead` still has the
index and the hint that were read, the blocks kept ready are enough, whatever
happened to the block in between.
-/
import Ubq.Mpmc.Heads

namespace Mpmc

open Function

variable {T : Type*} {cfg : Config} {t u : Tid} {s s' : Shared T} {g g' : Ghost T}
variable {p : Push T} {f : Fill T} {w : PushWalk T} {phead : Head} {next : Option Addr} {n : ℕ}
  {a : Addr}

/-! ## Sizes -/

theorem le_divCeil_mul (a : ℕ) {b : ℕ} (hb : 0 < b) : a ≤ divCeil a b * b := by
  unfold divCeil
  have h1 := Nat.div_add_mod (a + b - 1) b
  have h2 := Nat.mod_lt (a + b - 1) hb
  rw [Nat.mul_comm] at h1
  omega

theorem divCeil_pos {a b : ℕ} (ha : 0 < a) (hb : 0 < b) : 0 < divCeil a b := by
  by_contra hc
  have h1 := le_divCeil_mul a hb
  have h2 : divCeil a b = 0 := by omega
  rw [h2] at h1
  omega

/-- The blocks kept ready and the blocks already linked hold the reservation,
with a slot to spare. -/
theorem enough_of_need (h : Inv cfg s g) (hst : g.stage ≠ .fresh)
    (hi : s.phead.index < cfg.bl) (hneed : pushNeed cfg p s.phead ≤ n * cfg.bl) :
    g.L.ppos + p.items.length < (s.linked.length + n) * cfg.bl := by
  obtain ⟨_, hpos, hf⟩ := phead_open h hi
  have hlen : ∀ m, m ≤ s.linked.length → m * cfg.bl ≤ s.linked.length * cfg.bl :=
    fun m hm => Nat.mul_le_mul_right _ hm
  rw [Nat.add_mul]
  unfold pushNeed at hneed
  split at hneed
  · rename_i hn
    have h2 := hlen (g.pk + 1 + 1) (hf hn)
    rw [succ_mul, succ_mul] at h2
    omega
  · have h1 := hlen (g.pk + 1) (h.pk_lt hst)
    rw [succ_mul] at h1
    omega

/-! ## Up to the reservation -/

section

variable (h : Inv cfg s g)

include h

/-- The loop head of `push_batch`. -/
theorem pushLoop_ok (hu : Unlocked t g) (hp : PushOk t s g p)
    (hk : Keeps t g p.blocks) (hst : g.stage ≠ .fresh) (phead : Head) :
    StepOk cfg t s g (s, pushLoop cfg p phead) := by
  refine ⟨g, Ok.refl h, ?_⟩
  unfold pushLoop
  split
  · exact hu.toLocal rfl rfl rfl hk ⟨hp, hst⟩
  · split
    · exact hu.toLocal rfl rfl rfl hk ⟨hp, hst, by omega, rfl⟩
    · exact hu.toLocal rfl rfl rfl hk ⟨hp, hst, by omega, by omega⟩

/-- `phead` is loaded; the zero head leads to the first block. -/
theorem pLoad_ok (hl : Local cfg t s g (.pLoad p)) :
    StepOk cfg t s g (if s.phead = Head.zero then (s, .pInitSwap p)
      else (s, pushLoop cfg p s.phead)) := by
  obtain ⟨hp, hb⟩ := hl.here
  have hu := hl.unlocked rfl rfl rfl rfl rfl
  split
  · exact ⟨g, Ok.refl h, hu.toLocal rfl rfl rfl hl.keeps ⟨hp, hb⟩⟩
  · rename_i hz
    exact pushLoop_ok h hu hp hl.keeps (fun hc => hz ((phead_zero_iff h).mpr hc)) _

/-- The first block comes from the pool. -/
theorem pInitSwap_ok
    (hl : Local cfg t s g (.pInitSwap p)) (ha : s.pool = some a) :
    StepOk cfg t s g ({ s with pool := none }, .pInitCas p a) := by
  obtain ⟨hp, hb⟩ := hl.here
  have hu := hl.unlocked rfl rfl rfl rfl rfl
  obtain ⟨hclean, hnext⟩ := h.pool_clean a ha
  have hk : Keeps t g [] := hb ▸ hl.keeps
  refine ⟨_, ok_takePool h ha, { hl with
    pending := fun _ => hu.idle
    covers := fun _ => hu.covers
    keeps := hk.gain a rfl
    here := ⟨⟨hp.user, ?_, ?_⟩, hb, ⟨by simp, fun b hb => ?_⟩, ⟨rfl, hnext⟩⟩ }⟩
  · rw [hb]
    exact owned_nil
  · rw [hb]
    exact linked_nil
  · rw [List.mem_singleton] at hb
    subst hb
    exact ⟨update_self _ _ _, hclean⟩

/-- The first block comes from the allocator. -/
theorem pInitAlloc_ok
    (hl : Local cfg t s g (.pInitAlloc p)) (ha : s.arena.allocated a = false) :
    StepOk cfg t s g (s.newChain [a], .pInitCas p a) := by
  obtain ⟨hp, hb⟩ := hl.here
  have hu := hl.unlocked rfl rfl rfl rfl rfl
  have hspec : NewChain s [a] (s.newChain [a]) := newChain_spec s (by simp) (by simp)
  have hok : Ok cfg t s g (s.newChain [a]) { g with owner := giveTo g.owner t [a] } :=
    ok_newChain h (by simp) (by simp) (by simpa using ha)
  have hk : Keeps t g [] := hb ▸ hl.keeps
  refine ⟨_, hok, { hl with
    pending := fun _ => hu.idle
    covers := fun _ => hu.covers
    keeps := hk.give rfl
    here := ⟨⟨hp.user, ?_, ?_⟩, hb, ⟨by simp, fun b hb => ⟨giveTo_of_mem hb, hspec.clean b hb⟩⟩,
      hspec.path⟩ }⟩
  · rw [hb]
    exact owned_nil
  · rw [hb]
    exact linked_nil

/-- The first block is installed, or another thread was faster. -/
theorem pInitCas_ok {root : Addr}
    (hl : Local cfg t s g (.pInitCas p root)) :
    StepOk cfg t s g (if s.phead = Head.zero then
        ({ s with phead := Head.fromPtr (some root), linked := s.linked ++ [root] },
          .pInitStore p root)
      else (s, pushLoop cfg { p with blocks := [root] } Head.zero)) := by
  obtain ⟨hp, hb, ho, hlk⟩ := hl.here
  have hu := hl.unlocked rfl rfl rfl rfl rfl
  split
  · rename_i hz
    have hst := (phead_zero_iff h).mp hz
    refine ⟨_, ok_init h hst ho hlk, ?_, ?_, ?_, fun _ => hu.idle, fun _ => hu.covers,
      hl.keeps.lose (by simp) rfl fun b hbr hne => absurd (List.mem_singleton.mp hbr) hne,
      ⟨hp.user, ?_, ?_⟩, hb, ?_⟩
    · simp [Pc.holdsI]
    · simpa [Pc.holdsP] using hu.prod
    · simpa [Pc.holdsC] using hu.cons
    · rw [hb]
      exact owned_nil
    · rw [hb]
      exact linked_nil
    · rw [h.fresh_iff.mp hst]
      rfl
  · rename_i hz
    have hp' : PushOk t s g { p with blocks := [root] } := ⟨hp.user, ho, hlk⟩
    exact pushLoop_ok h hu hp' hl.keeps (fun hc => hz ((phead_zero_iff h).mpr hc)) _

/-- `chead` follows the first block. -/
theorem pInitStore_ok {root : Addr}
    (hl : Local cfg t s g (.pInitStore p root)) :
    StepOk cfg t s g ({ s with chead := Head.fromPtr (some root) },
      pushLoop cfg p (Head.fromPtr (some root))) := by
  obtain ⟨hp, hb, hroot⟩ := hl.here
  have hok := ok_open h (hl.holdsI.mpr rfl) hroot
  have hu : Unlocked t { g with stage := .ready } := by
    refine ⟨by simp, fun hc => ?_, fun hc => ?_, hl.pending rfl, hl.covers rfl⟩
    · exact absurd (hl.holdsP.mp hc) (by simp [Pc.holdsP])
    · exact absurd (hl.holdsC.mp hc) (by simp [Pc.holdsC])
  exact StepOk.after hok
    (pushLoop_ok hok.inv hu ⟨hp.user, hp.owned, hp.linked⟩ hl.keeps (by simp) _)

/-- After the pooled block: either the chain is long enough or a run is allocated. -/
theorem grown_ok (hu : Unlocked t g) (hp : PushOk t s g p)
    (hk : Keeps t g p.blocks) (hst : g.stage ≠ .fresh)
    (hi : phead.index < cfg.bl) :
    StepOk cfg t s g (s, grown cfg p phead (pushNeed cfg p phead)) := by
  refine ⟨g, Ok.refl h, ?_⟩
  unfold grown
  split
  · exact hu.toLocal rfl rfl rfl hk ⟨hp, hst, hi, rfl, by assumption⟩
  · exact hu.toLocal rfl rfl rfl hk ⟨hp, hst, hi, by omega⟩

/-- More private blocks behind the ones kept ready. -/
theorem PushOk.give (hp : PushOk t s g p) {l : List Addr}
    (ho : Owned t s g l) (hlk : Linked s l) (hd : ∀ a ∈ l, a ∉ p.blocks) :
    ∃ s', s.give p.blocks l = (s', p.blocks ++ l) ∧ Ok cfg t s g s' g ∧
      PushOk t s' g { p with blocks := p.blocks ++ l } := by
  have happ : Owned t s g (p.blocks ++ l) := by
    refine ⟨List.nodup_append'.mpr ⟨hp.owned.1, ho.1, fun a h1 h2 => hd a h2 h1⟩, fun a ha => ?_⟩
    rcases List.mem_append.mp ha with ha | ha
    · exact hp.owned.2 a ha
    · exact ho.2 a ha
  obtain ⟨s', hgive, hok, hown, hlink, _⟩ := give_ok h happ hp.linked hlk
  exact ⟨s', hgive, hok, hp.user, hown, hlink⟩

/-- The chain grows by the pooled block. -/
theorem pSwap_ok {need : ℕ}
    (hl : Local cfg t s g (.pSwap p phead need)) (ha : s.pool = some a) :
    ∃ s', Shared.give { s with pool := none } p.blocks [a] = (s', p.blocks ++ [a]) ∧
      StepOk cfg t s g
        (s', grown cfg { p with blocks := p.blocks ++ [a] } phead need) := by
  obtain ⟨hp, hst, hi, rfl⟩ := hl.here
  have hu := hl.unlocked rfl rfl rfl rfl rfl
  have hown := (h.pool_iff a).mpr ha
  obtain ⟨hclean, hnext⟩ := h.pool_clean a ha
  have hne : a ∉ p.blocks := by
    intro hc
    have := (hp.owned.2 a hc).1
    simp [hown] at this
  have hok := ok_takePool (t := t) h ha
  have hp' : PushOk t { s with pool := none }
      { g with owner := update g.owner a (.held t) } p :=
    ⟨hp.user, hp.owned.of_eq
      (fun b hb => update_of_ne (ne_of_mem_of_not_mem hb hne) _ _) (fun _ _ => rfl),
      hp.linked⟩
  obtain ⟨s', hgive, hok', hp''⟩ := hp'.give (l := [a]) hok.inv
    ⟨by simp, fun b hb => by
      rw [List.mem_singleton] at hb
      subst hb
      exact ⟨update_self _ _ _, hclean⟩⟩ ⟨rfl, hnext⟩ (by simpa using hne)
  have hk : Keeps t { g with owner := update g.owner a (.held t) } (p.blocks ++ [a]) := by
    have hkeeps : Keeps t g p.blocks := hl.keeps
    have hgain : Keeps t { g with owner := update g.owner a (.held t) } (a :: p.blocks) :=
      hkeeps.gain a rfl
    intro b hb
    simpa [or_comm] using hgain b hb
  exact ⟨s', hgive, StepOk.after hok (StepOk.after hok'
    (grown_ok hok'.inv { hu with } hp'' hk hst hi))⟩

/-- The chain grows by a new run. -/
theorem pAlloc_ok {need : ℕ} {as : List Addr}
    (hl : Local cfg t s g (.pAlloc p phead need))
    (hlen : as.length = divCeil (need - p.blocks.length * cfg.bl) cfg.bl) (hnd : as.Nodup)
    (hfree : ∀ a ∈ as, s.arena.allocated a = false) :
    ∃ s', (s.newChain as).give p.blocks as = (s', p.blocks ++ as) ∧
      StepOk cfg t s g (s', .pCas { p with blocks := p.blocks ++ as } phead) := by
  obtain ⟨hp, hst, hi, rfl, hlt⟩ := hl.here
  have hu := hl.unlocked rfl rfl rfl rfl rfl
  have hpos := divCeil_pos (a := pushNeed cfg p phead - p.blocks.length * cfg.bl) (by omega)
    cfg.bl_pos
  have hne : as ≠ [] := by
    rintro rfl
    rw [List.length_nil] at hlen
    omega
  have hspec := newChain_spec s hne hnd
  have hok := ok_newChain (t := t) h hne hnd hfree
  have hout : ∀ a ∈ p.blocks, a ∉ as := by
    intro a ha hc
    have := (hp.owned.2 a ha).1
    simp [h.pages.freed a (hfree a hc)] at this
  have hp' : PushOk t (s.newChain as) { g with owner := giveTo g.owner t as } p :=
    ⟨hp.user, hp.owned.of_eq (fun b hb => giveTo_of_notMem (hout b hb))
      (fun b hb => hspec.old b (hout b hb)), hp.linked.of_eq fun b hb => hspec.old b (hout b hb)⟩
  obtain ⟨s', hgive, hok', hp''⟩ := hp'.give hok.inv
    ⟨hnd, fun a ha => ⟨giveTo_of_mem ha, hspec.clean a ha⟩⟩ hspec.path
    (fun a ha hc => hout a hc ha)
  refine ⟨s', hgive, StepOk.after hok (StepOk.after hok' ⟨_, Ok.refl hok'.inv, ?_⟩)⟩
  have hu' : Unlocked t { g with owner := giveTo g.owner t as } :=
    { hu with }
  refine hu'.toLocal rfl rfl rfl (hl.keeps.give rfl) ⟨hp'', hst, hi, ?_⟩
  show pushNeed cfg p phead ≤ (p.blocks ++ as).length * cfg.bl
  have hmul := le_divCeil_mul (pushNeed cfg p phead - p.blocks.length * cfg.bl) cfg.bl_pos
  rw [List.length_append, Nat.add_mul, hlen]
  omega

end

/-! ## The slot loop -/

/-- The top of the slot loop, whether items are left or not. -/
theorem fillOn_local (hi : g.stage ≠ .opening t) (hpo : g.pown ≠ some t) (hco : g.cown ≠ some t)
    (hcov : g.L.Covers t 0 0) {a : ℕ} (hk : Keeps t g f.p.blocks)
    (hp : PushOk t s g f.p) (hjob : Job t s g f.p.items a f.done)
    (hle : f.done ≤ f.p.items.length)
    (hseg : f.done < f.p.items.length → ∃ k, Filling cfg t s g f a k) :
    Local cfg t s g (fillOn cfg f) := by
  unfold fillOn
  split
  · rename_i hlt
    obtain ⟨k, hf⟩ := hseg hlt
    split
    · rename_i hend
      refine ⟨?_, ?_, ?_, fun hc => absurd hc (by simp [Pc.writing]), fun _ => hcov, hk,
        ⟨a, k, hf⟩, hend⟩
      · simpa [Pc.holdsI] using hi
      · simpa [Pc.holdsP] using hpo
      · simpa [Pc.holdsC] using hco
    · rename_i hend
      refine ⟨?_, ?_, ?_, fun hc => absurd hc (by simp [Pc.writing]), fun _ => hcov, hk, a, k, hf,
        fun hc => absurd hc hend⟩
      · simpa [Pc.holdsI] using hi
      · simpa [Pc.holdsP] using hpo
      · simpa [Pc.holdsC] using hco
  · have hdone : f.done = f.p.items.length := by omega
    have hpend := hjob.pending
    have hsent := hjob.sent
    rw [hdone, Nat.sub_self] at hpend
    rw [hdone, List.take_length] at hsent
    exact Unlocked.toLocal ⟨hi, hpo, hco, hpend.none, hcov⟩ rfl rfl rfl hk
      ⟨hp, a, hjob.resv, hsent⟩

/-- The slot a fill has reached lies in a linked block. -/
theorem filling_block (h : Inv cfg s g) {a k : ℕ} (hf : Filling cfg t s g f a k) :
    ∃ x b, f.p.items[f.done]? = some x ∧ f.block = some b ∧ g.owner b = .chain k ∧
      g.L.prod (k * cfg.bl + f.index) = .reserved t x := by
  obtain ⟨x, hx⟩ : ∃ x, f.p.items[f.done]? = some x := ⟨_, List.getElem?_eq_getElem hf.lt⟩
  obtain ⟨b, hb, hget⟩ := hf.here.block
  have hcell := hf.owes 0 x (by rw [List.getElem?_drop]; exact hx)
  rw [Nat.add_zero, ← hf.pos] at hcell
  refine ⟨x, b, hx, hb, live_of_not_published h hget hf.here.2.2 fun y hy => ?_, hcell⟩
  simp [hcell] at hy

/-- The block after a full one is linked already. -/
theorem pWait_ok (h : Inv cfg s g) (hl : Local cfg t s g (.pWait f)) :
    ∃ b n, f.block = some b ∧ (s.heap b).next = some n ∧
      StepOk cfg t s g (s, .pWrite f (some n)) := by
  obtain ⟨⟨a, k, hf⟩, hend⟩ := hl.here
  obtain ⟨x, b, _, hb, hlive, _⟩ := filling_block h hf
  obtain ⟨n, hn⟩ : ∃ n, s.linked[k + 1]? = some n :=
    ⟨_, List.getElem?_eq_getElem (hf.succ_lt hend)⟩
  have hnext : (s.heap b).next = some n := (h.chain.link b k hlive).trans hn
  exact ⟨b, n, hb, hnext, ⟨g, Ok.refl h,
    { hl with here := ⟨a, k, hf, fun _ => hn.symm⟩ }⟩⟩

/-- The slot after the one just written. -/
theorem fill_advance {k : ℕ}
    (hat : At cfg s k f.block f.index) (hn : f.index + 1 = cfg.bl → next = s.linked[k + 1]?)
    (hk : f.index + 1 = cfg.bl → k + 1 < s.linked.length) :
    ∃ k', At cfg s k' (f.advance cfg next).block (f.advance cfg next).index ∧
      k' * cfg.bl + (f.advance cfg next).index = k * cfg.bl + f.index + 1 := by
  unfold Fill.advance
  split
  · rename_i hend
    refine ⟨k + 1, ⟨hn hend, hk hend, cfg.bl_pos⟩, ?_⟩
    show (k + 1) * cfg.bl + 0 = k * cfg.bl + f.index + 1
    rw [succ_mul]
    omega
  · have hi := hat.2.2
    exact ⟨k, ⟨hat.1, hat.2.1, by show f.index + 1 < cfg.bl; omega⟩, by simp; omega⟩

theorem Fill.advance_p (f : Fill T) (next : Option Addr) : (f.advance cfg next).p = f.p := by
  unfold Fill.advance
  split <;> rfl

theorem Fill.advance_done (f : Fill T) (next : Option Addr) :
    (f.advance cfg next).done = f.done + 1 := by
  unfold Fill.advance
  split <;> rfl

/-- A reserved slot is written. -/
theorem pWrite_ok (h : Inv cfg s g)
    (hl : Local cfg t s g (.pWrite f next)) :
    ∃ b, f.block = some b ∧ StepOk cfg t s g
      (s.modBlock b (fun b => b.setSlot f.index ((b.slots f.index).put (f.p.items[f.done]?).join)),
        fillOn cfg (f.advance cfg next)) := by
  obtain ⟨a, k, hf, hn⟩ := hl.here
  obtain ⟨x, b, hx, hb, hlive, hcell⟩ := filling_block h hf
  refine ⟨b, hb, ?_⟩
  rw [hx]
  have hok := ok_write h hlive hf.here.2.2 hcell
  have hp : PushOk t (s.modBlock b fun b => b.setSlot f.index ((b.slots f.index).put x))
      { g with L := g.L.publish (k * cfg.bl + f.index) 1 } f.p := by
    have hne : ∀ c ∈ f.p.blocks, c ≠ b := fun c hc hcb => hf.push.owned.ne_chain hlive (hcb ▸ hc)
    have hheap : ∀ c ∈ f.p.blocks,
        (s.modBlock b fun b => b.setSlot f.index ((b.slots f.index).put x)).heap c = s.heap c :=
      fun c hc => update_of_ne (hne c hc) _ _
    exact ⟨hf.push.user, hf.push.owned.of_eq (fun _ _ => rfl) hheap, hf.push.linked.of_eq hheap⟩
  have hlt := hf.lt
  have hpos := hf.pos
  have hout : ∀ p, p ≠ a + f.done →
      (g.L.publish (k * cfg.bl + f.index) 1).prod p = g.L.prod p :=
    fun p hp => Ledger.publish_prod_out _ (by omega)
  have hself : (g.L.publish (k * cfg.bl + f.index) 1).prod (a + f.done) = .published x := by
    rw [← hpos, Ledger.publish_prod_in _ (by omega) (by omega), hcell]
    rfl
  have hjob : Job t (s.modBlock b fun b => b.setSlot f.index ((b.slots f.index).put x))
      { g with L := g.L.publish (k * cfg.bl + f.index) 1 } f.p.items a (f.done + 1) := by
    refine ⟨hf.job.resv, fun j y hj => ?_, fun p v hv => ?_⟩
    · have hjl : j < f.done + 1 := by
        have := (List.getElem?_eq_some_iff.mp hj).1
        rw [List.length_take] at this
        omega
      rw [List.getElem?_take_of_lt hjl] at hj
      by_cases hjd : j = f.done
      · subst hjd
        rw [hx] at hj
        rw [hself, Option.some.inj hj]
      · rw [hout _ (by omega)]
        exact hf.job.sent j y (by rw [List.getElem?_take_of_lt (by omega)]; exact hj)
    · -- what is pending now was pending before, the written slot apart
      have hv' : (g.L.publish (k * cfg.bl + f.index) 1).prod p = .reserved t v ∨
          (g.L.publish (k * cfg.bl + f.index) 1).prod p = .copied t v := hv
      by_cases hpd : p = a + f.done
      · rw [hpd, hself] at hv'
        rcases hv' with hv' | hv' <;> exact absurd hv' (by simp)
      · rw [hout p hpd] at hv'
        have := hf.job.pending p v hv'
        omega
  refine ⟨_, hok, fillOn_local (a := a) ?_ ?_ ?_ ?_ (by rw [Fill.advance_p]; exact hl.keeps)
    (by rw [Fill.advance_p]; exact hp)
    (by rw [Fill.advance_p, Fill.advance_done]; exact hjob)
    (by rw [Fill.advance_p, Fill.advance_done]; omega) fun hlt' => ?_⟩
  · exact fun hc => absurd (hl.holdsI.mp hc) (by simp [Pc.holdsI])
  · exact fun hc => absurd (hl.holdsP.mp hc) (by simp [Pc.holdsP])
  · exact fun hc => absurd (hl.holdsC.mp hc) (by simp [Pc.holdsC])
  · exact hl.covers rfl
  · obtain ⟨k', hat', hpos'⟩ := fill_advance hf.here hn hf.succ_lt
    refine ⟨k', ?_, ?_, hlt', hat', ?_, ?_, ?_⟩
    · rwa [Fill.advance_p]
    · rwa [Fill.advance_p, Fill.advance_done]
    · rw [hpos', Fill.advance_done]
      omega
    · rw [Fill.advance_p, Fill.advance_done]
      intro j y hj
      rw [hout _ (by omega)]
      rw [List.getElem?_drop] at hj
      have := hf.owes (1 + j) y (by rw [List.getElem?_drop, ← hj]; congr 1; omega)
      rwa [show a + f.done + (1 + j) = a + (f.done + 1) + j by omega] at this
    · rw [Fill.advance_p]
      exact hf.room

/-- The push returns. -/
theorem pDrop_ok (h : Inv cfg s g) (hl : Local cfg t s g (.pDrop p))
    (hb : p.blocks = []) : StepOk cfg t s g (pushed cfg s t p.ret) := by
  obtain ⟨hp, a, hresv, hsent⟩ := hl.here
  obtain ⟨items, hret, hitems, _⟩ := hp.user
  rw [hret]
  rw [hitems] at hresv hsent
  exact ret_ok h (hl.unlocked rfl rfl rfl rfl rfl) (hb ▸ hl.keeps)
    ⟨rfl, Or.inr ⟨a, hresv, hsent⟩⟩

/-- A clean block has no value to drop. -/
theorem Block.Clean.drops {b : Block T} (h : b.Clean) : b.drops cfg = [] := by
  unfold Block.drops
  rw [List.filterMap_eq_nil_iff]
  intro i _
  rw [h.2 i]
  rfl

/-- A block that was not needed is freed. -/
theorem pDrop_free_ok (h : Inv cfg s g) {b : Addr} {rest : List Addr}
    (hl : Local cfg t s g (.pDrop p)) (hb : p.blocks = b :: rest) :
    StepOk cfg t s g (s.free cfg b, .pDrop { p with blocks := rest }) := by
  obtain ⟨hp, a, hresv, hsent⟩ := hl.here
  have ho := hp.owned
  have hlk := hp.linked
  have hk : Keeps t g (b :: rest) := hb ▸ hl.keeps
  rw [hb] at ho hlk
  obtain ⟨hnot, hnd⟩ := List.nodup_cons.mp ho.1
  refine ⟨_, ok_free h (ho.2 b (by simp)).1 (ho.2 b (by simp)).2.drops,
    { hl with
      keeps := hk.lose (by simp) rfl fun c hc hne => (List.mem_cons.mp hc).resolve_left hne
      here := ⟨⟨hp.user, ⟨hnd, fun c hc => ?_⟩, hlk.tail⟩, a, hresv, hsent⟩ }⟩
  have hcb : c ≠ b := fun hcb => hnot (hcb ▸ hc)
  obtain ⟨h1, h2⟩ := ho.2 c (List.mem_cons_of_mem _ hc)
  exact ⟨(update_of_ne hcb _ _).trans h1, h2⟩

/-! ## The reservation -/

/-- The successful compare-exchange on `phead`. -/
theorem reserved_ok (h : Inv cfg s g)
    (hl : Local cfg t s g (.pCas p phead)) (heq : s.phead = phead) :
    StepOk cfg t s g (reserved cfg t s p phead) := by
  obtain ⟨hp, hst, hi, hneed⟩ := hl.here
  have hu := hl.unlocked rfl rfl rfl rfl rfl
  subst heq
  obtain ⟨hown, hpos, _⟩ := phead_open h hi
  have henough := enough_of_need h hst hi hneed
  obtain ⟨items, hret, hitems, hnil⟩ := hp.user
  have hsome : none ∉ p.items := by rw [hitems]; simp
  have hlen : 0 < p.items.length := by
    rw [hitems, List.length_map]
    exact List.length_pos_iff.mpr hnil
  have hat : At cfg s g.pk s.phead.block s.phead.index := ⟨phead_block h, h.pk_lt hst, hi⟩
  unfold reserved
  rw [phead_place h hst hi]
  have hjob : ∀ s' : Shared T, s'.log = s.log.reserve t g.L.ppos p.items →
      ∀ g' : Ghost T, g'.L = g.L.reserve t p.items → Job t s' g' p.items g.L.ppos 0 := by
    intro s' hs' g' hg'
    refine ⟨?_, nofun, fun q v hq => ?_⟩
    · rw [hs']
      exact List.mem_append_right _ (by simp)
    · rw [hg'] at hq
      rcases h.ledger.reserve_prod t p.items q with hold | ⟨hfree, v', hv'⟩
      · rw [hold] at hq
        have := hu.idle q v hq
        omega
      · have h1 := (h.ledger.prod_free q).mp hfree
        have h2 := ((Ledger.Step.reserve p.items : Ledger.Step t g.L _).wf h.ledger).reserved_lt
          (p := q) (by rw [hv']; simp)
        rw [Ledger.reserve_ppos] at h2
        omega
  have howes := Ledger.owes_reserve g.L t p.items
  by_cases hfull : cfg.bl ≤ s.phead.index + p.items.length
  · have hidx : (pushHead cfg p s.phead).index = cfg.bl := Nat.min_eq_right hfull
    rw [if_pos hidx]
    have hok := ok_reserve (t := t) h hst hi p.items hsome (Or.inr ⟨hfull, rfl⟩)
    refine ⟨_, hok, ?_, ?_, ?_, fun hc => absurd hc (by simp [Pc.writing]),
      fun _ => hu.covers, hl.keeps, g.pk, ?_⟩
    · simpa [Pc.holdsI] using hu.init
    · simp [Pc.holdsP]
    · simpa [Pc.holdsC] using hu.cons
    · exact {
        push := ⟨⟨items, hret, hitems, hnil⟩, owned_nil, linked_nil⟩
        none_left := rfl
        owned := hp.owned
        linked := hp.linked
        start := hat
        job := hpos ▸ hjob _ rfl _ rfl
        owes := hpos ▸ howes
        ppos := by
          show g.pk * cfg.bl + s.phead.index + p.items.length = g.L.ppos + p.items.length
          rw [hpos]
        enough := henough
        here := hat
        pk_le := le_refl _
        rest := by
          show g.pk * cfg.bl + (s.phead.index + p.items.length) = g.L.ppos + p.items.length
          omega
        first := fun _ => hfull }
  · have hidx : (pushHead cfg p s.phead).index ≠ cfg.bl := by
      show min (s.phead.index + p.items.length) cfg.bl ≠ cfg.bl
      omega
    rw [if_neg hidx]
    have hok := ok_reserve (t := t) h hst hi p.items hsome (Or.inl ⟨by omega, rfl⟩)
    have hpush : PushOk t
        { s with
          phead := ⟨s.phead.block, min (s.phead.index + p.items.length) cfg.bl, false⟩
          log := s.log.reserve t g.L.ppos p.items }
        { g with L := g.L.reserve t p.items, pown := none } p :=
      ⟨⟨items, hret, hitems, hnil⟩, hp.owned, hp.linked⟩
    refine ⟨_, hok,
      fillOn_local (a := g.L.ppos) ?_ (by simp) ?_ ?_ hl.keeps hpush (hjob _ rfl _ rfl)
      (Nat.zero_le _) fun _ => ⟨g.pk, hpush, hjob _ rfl _ rfl, hlen, hat, ?_, howes, ?_⟩⟩
    · exact hu.init
    · exact hu.cons
    · exact hu.covers
    · rw [hpos, Nat.add_zero]
    · show g.L.ppos + p.items.length < s.linked.length * cfg.bl
      have hle : (g.pk + 1) * cfg.bl ≤ s.linked.length * cfg.bl :=
        Nat.mul_le_mul_right _ (h.pk_lt hst)
      rw [succ_mul] at hle
      omega

/-! ## The boundary -/

/-- The block at which the boundary walk stands is live. -/
theorem crossing_block (h : Inv cfg s g) (hc : Crossing cfg t s g w n) :
    ∃ a, w.block = some a ∧ s.linked[n]? = some a ∧ g.owner a = .chain n := by
  obtain ⟨a, ha, hget⟩ := hc.here.block
  refine ⟨a, ha, hget, ?_⟩
  rcases Nat.eq_or_lt_of_le hc.pk_le with rfl | hlt
  · -- the first owed position is not published yet
    obtain ⟨items, _, hitems, hnil⟩ := hc.push.user
    obtain ⟨x, hx⟩ : ∃ x, w.p.items[0]? = some x := by
      refine ⟨_, List.getElem?_eq_getElem ?_⟩
      rw [hitems, List.length_map]
      exact List.length_pos_iff.mpr hnil
    have hcell := hc.owes 0 x hx
    refine live_of_not_published h hget hc.start.2.2 fun y hy => ?_
    simp [hy] at hcell
  · have hmul : (g.pk + 1) * cfg.bl ≤ n * cfg.bl := Nat.mul_le_mul_right _ hlt
    have hcp := h.cpos_pk
    rw [succ_mul] at hmul
    exact live_of_unclaimed h hget cfg.bl_pos (by omega)

/-- On to the next block, or to the store. -/
theorem walkOn_local
    (hi : g.stage ≠ .opening t) (hown : g.pown = some t) (hco : g.cown ≠ some t)
    (hcov : g.L.Covers t 0 0) (hk : Keeps t g w.root) (hc : Crossing cfg t s g w n)
    (hn : next = s.linked[n + 1]?)
    (hlt : cfg.bl ≤ w.index + w.remaining → n + 1 < s.linked.length) :
    Local cfg t s g (walkOn cfg w next) := by
  have hidx := hc.here.2.2
  have hpk := hc.pk_le
  have hrest := hc.rest
  unfold walkOn
  split
  · refine ⟨?_, ?_, ?_, fun hc => absurd hc (by simp [Pc.writing]), fun _ => hcov, hk, n, hc, hn,
      by omega⟩
    · simpa [Pc.holdsI] using hi
    · simp [Pc.holdsP, hown]
    · simpa [Pc.holdsC] using hco
  · refine ⟨?_, ?_, ?_, fun hc => absurd hc (by simp [Pc.writing]), fun _ => hcov, hk, n + 1, ?_⟩
    · simpa [Pc.holdsI] using hi
    · simp [Pc.holdsP, hown]
    · simpa [Pc.holdsC] using hco
    · exact {
        push := hc.push
        none_left := hc.none_left
        owned := hc.owned
        linked := hc.linked
        start := hc.start
        job := hc.job
        owes := hc.owes
        ppos := hc.ppos
        enough := hc.enough
        here := ⟨hn, hlt (by omega), cfg.bl_pos⟩
        pk_le := by omega
        rest := by
          show (n + 1) * cfg.bl + (0 + (w.remaining - (cfg.bl - w.index))) = g.L.ppos
          rw [succ_mul]
          omega
        first := fun hc => by omega }

/-- The walk follows a link. -/
theorem pNext_ok (h : Inv cfg s g) (hl : Local cfg t s g (.pNext w)) :
    ∃ a, w.block = some a ∧ StepOk cfg t s g
      (match (s.heap a).next with
        | none => (s, .pLink w)
        | some m => (s, walkOn cfg w (some m))) := by
  obtain ⟨n, hc⟩ := hl.here
  obtain ⟨a, ha, _, hlive⟩ := crossing_block h hc
  have hnext : (s.heap a).next = s.linked[n + 1]? := h.chain.link a n hlive
  refine ⟨a, ha, ?_⟩
  rw [hnext]
  cases hget : s.linked[n + 1]? with
  | none =>
    have hlast := List.getElem?_eq_none_iff.mp hget
    have hn := hc.here.2.1
    have hlen : n + 1 = s.linked.length := by omega
    exact ⟨g, Ok.refl h, { hl with here := ⟨n, hc, hlen⟩ }⟩
  | some m =>
    refine ⟨g, Ok.refl h, walkOn_local ?_ (hl.holdsP.mpr rfl) ?_ (hl.covers rfl) hl.keeps hc
      hget.symm fun _ => ?_⟩
    · exact fun hc => absurd (hl.holdsI.mp hc) (by simp [Pc.holdsI])
    · exact fun hc => absurd (hl.holdsC.mp hc) (by simp [Pc.holdsC])
    · exact (List.getElem?_eq_some_iff.mp hget).1

/-- The chain of the push is linked behind the last block. -/
theorem pLink_ok (h : Inv cfg s g) (hl : Local cfg t s g (.pLink w)) :
    ∃ a, w.block = some a ∧ StepOk cfg t s g
      ({ s.modBlock a (·.setNext w.root.head?) with linked := s.linked ++ w.root },
        walkOn cfg { w with root := [] } w.root.head?) := by
  obtain ⟨n, hc, hn⟩ := hl.here
  obtain ⟨a, ha, hget, hlive⟩ := crossing_block h hc
  have hst : g.stage ≠ .fresh := fun hf => by
    simp [h.fresh_iff.mp hf] at hn
  have hown : g.pown = some t := hl.holdsP.mpr rfl
  have hlast : s.linked.length - 1 = n := by omega
  have hstart := hc.start
  have hppos := hc.ppos
  -- behind the last block everything reserved is still owed by `t`
  have hun : ∀ p, s.linked.length * cfg.bl ≤ p → ∀ x, g.L.prod p ≠ .published x := by
    intro p hp x hx
    have hlt := h.ledger.reserved_lt (p := p) (by rw [hx]; simp)
    have hle : (g.pk + 1) * cfg.bl ≤ s.linked.length * cfg.bl :=
      Nat.mul_le_mul_right _ hstart.2.1
    rw [succ_mul] at hle
    have hi := hstart.2.2
    obtain ⟨y, hy⟩ : ∃ y, w.p.items[p - (g.pk * cfg.bl + w.phead.index)]? = some y :=
      ⟨_, List.getElem?_eq_getElem (by omega)⟩
    have hcell := hc.owes _ y hy
    rw [show g.pk * cfg.bl + w.phead.index + (p - (g.pk * cfg.bl + w.phead.index)) = p by omega,
      hx] at hcell
    cases hcell
  have hok := ok_link h hown hst hc.owned hc.linked (by rw [hlast]; exact hget)
    (by rw [hlast]; exact hlive) hun
  refine ⟨a, ha, _, hok, ?_⟩
  have hkeep : ∀ k, k < s.linked.length → (s.linked ++ w.root)[k]? = s.linked[k]? :=
    fun k hk => List.getElem?_append_left hk
  have hat : ∀ k block i, At cfg s k block i →
      At cfg { s.modBlock a (·.setNext w.root.head?) with linked := s.linked ++ w.root }
        k block i := by
    intro k block i hk
    refine ⟨?_, ?_, hk.2.2⟩
    · rw [hk.1]
      exact (hkeep k hk.2.1).symm
    · rw [List.length_append]
      have := hk.2.1
      omega
  have henough := hc.enough
  have hrest := hc.rest
  have hnext : w.root.head? = (s.linked ++ w.root)[n + 1]? := by
    rw [hn, List.getElem?_append_right (le_refl _), Nat.sub_self, List.head?_eq_getElem?]
  have hkeeps : Keeps t g w.root := hl.keeps
  refine walkOn_local (n := n) ?_ hown ?_ (hl.covers rfl) (hkeeps.link rfl) ?_ hnext fun hge => ?_
  · exact fun hc => absurd (hl.holdsI.mp hc) (by simp [Pc.holdsI])
  · exact fun hc => absurd (hl.holdsC.mp hc) (by simp [Pc.holdsC])
  · exact {
      push := by
        refine ⟨hc.push.user, ?_, ?_⟩
        · rw [hc.none_left]
          exact owned_nil
        · rw [hc.none_left]
          exact linked_nil
      none_left := hc.none_left
      owned := owned_nil
      linked := linked_nil
      start := hat _ _ _ hc.start
      job := ⟨hc.job.resv, hc.job.sent, hc.job.pending⟩
      owes := hc.owes
      ppos := hc.ppos
      enough := by
        rwa [List.length_append]
      here := hat _ _ _ hc.here
      pk_le := hc.pk_le
      rest := hc.rest
      first := hc.first }
  · -- there is something left to place, so blocks were linked
    rw [List.length_append]
    have hge' : cfg.bl ≤ w.index + w.remaining := hge
    apply token_lt_of_mul_lt cfg.bl
    rw [succ_mul]
    omega

/-- The new `phead` is stored and the boundary left. -/
theorem pStore_ok (h : Inv cfg s g)
    (hl : Local cfg t s g (.pStore w next)) :
    StepOk cfg t s g
      ({ s with phead := Head.word cfg ⟨w.block, w.index + w.remaining, next.isSome⟩ },
        fillOn cfg ⟨{ w.p with blocks := w.root }, 0, w.phead.block, w.phead.index⟩) := by
  obtain ⟨n, hc, hn, hlt⟩ := hl.here
  have hown : g.pown = some t := hl.holdsP.mpr rfl
  have hlen := hc.here.2.1
  have hst : g.stage ≠ .fresh := fun hf => by
    simp [h.fresh_iff.mp hf] at hlen
  have hok := ok_pstore (f := next.isSome && cfg.hint) h hown hst hc.pk_le hlen hlt hc.rest.symm
    (fun hf => by
      rw [Bool.and_eq_true, hn] at hf
      obtain ⟨m, hm⟩ := Option.isSome_iff_exists.mp hf.1
      exact (List.getElem?_eq_some_iff.mp hm).1)
  rw [← hc.here.1] at hok
  obtain ⟨items, hret, hitems, hnil⟩ := hc.push.user
  have hpush : PushOk t
    { s with phead := ⟨w.block, w.index + w.remaining, next.isSome && cfg.hint⟩ }
      { g with pk := n, pown := none } { w.p with blocks := w.root } :=
    ⟨⟨items, hret, hitems, hnil⟩, hc.owned, hc.linked⟩
  have hjob : Job t { s with phead := ⟨w.block, w.index + w.remaining, next.isSome && cfg.hint⟩ }
      { g with pk := n, pown := none } w.p.items (g.pk * cfg.bl + w.phead.index) 0 :=
    ⟨hc.job.resv, hc.job.sent, hc.job.pending⟩
  have hpos : 0 < w.p.items.length := by
    rw [hitems, List.length_map]
    exact List.length_pos_iff.mpr hnil
  refine ⟨_, hok, fillOn_local (a := g.pk * cfg.bl + w.phead.index) ?_ (by simp) ?_ ?_ hl.keeps
    hpush hjob
    (Nat.zero_le _) fun _ => ⟨g.pk, hpush, hjob, hpos, hc.start, rfl, hc.owes, ?_⟩⟩
  · exact fun hc => absurd (hl.holdsI.mp hc) (by simp [Pc.holdsI])
  · exact fun hc => absurd (hl.holdsC.mp hc) (by simp [Pc.holdsC])
  · exact hl.covers rfl
  · show g.pk * cfg.bl + w.phead.index + w.p.items.length < s.linked.length * cfg.bl
    have hmul : (n + 1) * cfg.bl ≤ s.linked.length * cfg.bl := Nat.mul_le_mul_right _ hlen
    rw [succ_mul] at hmul
    have hrest := hc.rest
    have hpp := hc.ppos
    omega

end Mpmc
