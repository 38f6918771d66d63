/-
# Changes of the shared state that leave the queue alone

`Ok t s g s' g'` says that going from `(s, g)` to `(s', g')` keeps the invariant
and stays within what every thread other than `t` relies on.  All changes that
only concern blocks outside the chain share one rule, `ok_private`: writing to a
block the thread holds, allocating and freeing, and moving a block to or from
the pool.
-/
import Ubq.Mpmc.Pages

namespace Mpmc

open Function

variable {T : Type*} {cfg : Config} {t u : Tid} {s s' s'' : Shared T} {g g' g'' : Ghost T}
variable {a : Addr} {l : List Addr} {op : Op T} {res : Res T} {k i : ℕ}

theorem Rely.refl (u : Tid) (s : Shared T) (g : Ghost T) : Rely u s g s g where
  ledger := Ledger.Frame.refl u g.L
  covers := fun _ _ h => h
  linked := List.prefix_refl _
  log := Log.Grows.refl _
  seen := rfl
  held := fun _ h => ⟨h, rfl⟩
  keeps := fun _ h => h
  opening := Iff.rfl
  started := fun h => h
  ready := fun h => h
  pk := le_refl _
  pown := fun _ => ⟨rfl, rfl, rfl⟩
  pown_iff := Iff.rfl
  ck := le_refl _
  cpos := le_refl _
  cown := fun _ => rfl
  cown_iff := Iff.rfl

theorem Rely.trans (h : Rely u s g s' g') (h' : Rely u s' g' s'' g'') : Rely u s g s'' g'' where
  ledger := h.ledger.trans h'.ledger
  covers := fun a n hc => h'.covers a n (h.covers a n hc)
  linked := h.linked.trans h'.linked
  log := h.log.trans h'.log
  seen := h'.seen.trans h.seen
  held := fun a ha => by
    obtain ⟨h1, h2⟩ := h.held a ha
    obtain ⟨h3, h4⟩ := h'.held a h1
    exact ⟨h3, h4.trans h2⟩
  keeps := fun a ha => h.keeps a (h'.keeps a ha)
  opening := h'.opening.trans h.opening
  started := fun hs => h'.started (h.started hs)
  ready := fun hs => h'.ready (h.ready hs)
  pk := h.pk.trans h'.pk
  pown := fun hu => by
    obtain ⟨h1, h2, h3⟩ := h.pown hu
    obtain ⟨h4, h5, h6⟩ := h'.pown (h.pown_iff.mpr hu)
    exact ⟨h4.trans h1, h5.trans h2, h6.trans h3⟩
  pown_iff := h'.pown_iff.trans h.pown_iff
  ck := h.ck.trans h'.ck
  cpos := h.cpos.trans h'.cpos
  cown := fun hu => (h'.cown (h.cown_iff.mpr hu)).trans (h.cown hu)
  cown_iff := h'.cown_iff.trans h.cown_iff

/-- The invariant is kept and the other threads are not disturbed. -/
structure Ok (cfg : Config) (t : Tid) (s : Shared T) (g : Ghost T) (s' : Shared T)
    (g' : Ghost T) : Prop where
  inv : Inv cfg s' g'
  rely : ∀ u, u ≠ t → Rely u s g s' g'

theorem Ok.refl (h : Inv cfg s g) : Ok cfg t s g s g := ⟨h, fun u _ => Rely.refl u s g⟩

theorem Ok.trans (h : Ok cfg t s g s' g') (h' : Ok cfg t s' g' s'' g'') :
    Ok cfg t s g s'' g'' :=
  ⟨h'.inv, fun u hu => (h.rely u hu).trans (h'.rely u hu)⟩

/-- Promises about finished calls survive everything that keeps published values
and entries of the log. -/
theorem Done.mono (h : Done s g t op res)
    (hlog : s.log.Grows s'.log)
    (hpub : ∀ p v, g.L.prod p = .published v → g'.L.prod p = .published v) :
    Done s' g' t op res := by
  cases op with
  | pushBatch items =>
    refine ⟨h.1, h.2.imp_right ?_⟩
    rintro ⟨a, ha, hsent⟩
    exact ⟨a, hlog.reservations _ ha, fun j x hj => hpub _ x (hsent j x hj)⟩
  | popBatch size keep =>
    obtain ⟨vs, b, hres, hlen, htook⟩ := h
    exact ⟨vs, b, hres, hlen, htook.mono hlog⟩
  | isEmpty => exact h

/-- Recording a finished call changes nothing else. -/
theorem ok_trace (h : Inv cfg s g) (hd : Done s g t op res) :
    Ok cfg t s g { s with trace := s.trace ++ [(t, op, res)] } g := by
  refine ⟨{ h with trace := fun e he => ?_ }, fun u _ => { Rely.refl u s g with }⟩
  rcases List.mem_append.mp he with he | he
  · exact h.trace e he
  · rw [List.mem_singleton] at he
    subst he
    exact hd

/-- Loading `chead` notes a token. -/
theorem ok_see (h : Inv cfg s g) : Ok cfg t s g (see s t) g := by
  refine ⟨{ h with }, fun u hu => { Rely.refl u s g with seen := ?_ }⟩
  exact update_of_ne hu _ _

/-! ## Live blocks -/

/-- A block with a position that is not completed is still in the chain. -/
theorem live_of_not_done (h : Inv cfg s g) (ha : s.linked[k]? = some a)
    (hi : i < cfg.bl) (hd : g.L.cons (k * cfg.bl + i) ≠ .done) : g.owner a = .chain k := by
  rcases h.live k a ha with hown | hdone
  · exact hown
  · exact absurd (hdone i hi) hd

/-- A block with a position that is not published is still in the chain. -/
theorem live_of_not_published (h : Inv cfg s g)
    (ha : s.linked[k]? = some a) (hi : i < cfg.bl)
    (hp : ∀ x, g.L.prod (k * cfg.bl + i) ≠ .published x) : g.owner a = .chain k := by
  apply live_of_not_done h ha hi
  intro hd
  obtain ⟨x, hx⟩ := h.ledger.done_published _ hd
  exact hp x hx

/-- A block with a position that nobody has claimed is still in the chain. -/
theorem live_of_unclaimed (h : Inv cfg s g) (ha : s.linked[k]? = some a)
    (hi : i < cfg.bl) (hk : g.L.cpos ≤ k * cfg.bl + i) : g.owner a = .chain k := by
  apply live_of_not_done h ha hi
  rw [(h.ledger.cons_free _).mpr hk]
  simp

/-! ## Blocks outside the chain -/

/-- **The rule for changes outside the chain.** -/
theorem ok_private (h : Inv cfg s g) {heap' : Addr → Block T} {arena' : Arena}
    {pool' : Option Addr} {owner' : Addr → Own Tid}
    (hchain : ∀ a k, owner' a = .chain k ↔ g.owner a = .chain k)
    (hheap : ∀ a k, g.owner a = .chain k → heap' a = s.heap a)
    (hpages : Pages arena' (fun a => (heap' a).run) owner')
    (hpool : ∀ a, owner' a = .pooled ↔ pool' = some a)
    (hclean : ∀ a, pool' = some a → (heap' a).Clean ∧ (heap' a).next = none)
    (hown : ∀ u a, u ≠ t → (owner' a = .held u ↔ g.owner a = .held u))
    (hheld : ∀ u a, u ≠ t → g.owner a = .held u → heap' a = s.heap a) :
    Ok cfg t s g { s with heap := heap', arena := arena', pool := pool' }
      { g with owner := owner' } := by
  refine ⟨{ h with
    chain := h.chain.congr fun a k ha => ⟨(hchain a k).mp ha, ?_⟩
    live := fun k a ha => ?_
    pages := hpages
    content := fun a k ha => ?_
    unfinished := fun a k ha => ?_
    pool_iff := hpool
    pool_clean := hclean }, fun u hu => { Rely.refl u s g with
      held := fun a ha => ⟨(hown u a hu).mpr ha, hheld u a hu ha⟩
      keeps := fun a ha => (hown u a hu).mp ha }⟩
  · show (heap' a).next = (s.heap a).next
    rw [hheap a k ((hchain a k).mp ha)]
  · exact (h.live k a ha).imp_left (hchain a k).mpr
  · have ha' := (hchain a k).mp ha
    show Content cfg g.L k (heap' a)
    rw [hheap a k ha']
    exact h.content a k ha'
  · have ha' := (hchain a k).mp ha
    show (heap' a).consumed < cfg.bl
    rw [hheap a k ha']
    exact h.unfinished a k ha'

/-- Writing to a block that stays in its run. -/
theorem update_run {heap : Addr → Block T} {b' : Block T}
    (hb : b'.run = (heap a).run) :
    (fun b => (update heap a b' b).run) = fun b => (heap b).run := by
  funext b
  by_cases hba : b = a
  · subst hba
    rw [update_self, hb]
  · rw [update_of_ne hba]

/-- Writing to a block that `t` holds. -/
theorem ok_modBlock (h : Inv cfg s g) (ha : g.owner a = .held t)
    (f : Block T → Block T) (hf : (f (s.heap a)).run = (s.heap a).run) :
    Ok cfg t s g (s.modBlock a f) g := by
  have hne : ∀ b, b ≠ a → update s.heap a (f (s.heap a)) b = s.heap b :=
    fun b hb => update_of_ne hb _ _
  have hother : ∀ b, g.owner b ≠ .held t → b ≠ a := by
    rintro b hb rfl
    exact hb ha
  refine ok_private h (fun _ _ => Iff.rfl) (fun b k hb => hne b (hother b (by simp [hb])))
    ?_ h.pool_iff (fun b hb => ?_) (fun _ _ _ => Iff.rfl)
    (fun u b hu hb => hne b (hother b (by simp [hb, hu])))
  · rw [update_run hf]
    exact h.pages
  · rw [hne b (hother b (by rw [(h.pool_iff b).mpr hb]; simp))]
    exact h.pool_clean b hb

/-- Allocating a chain of blocks. -/
theorem ok_newChain (h : Inv cfg s g) {as : List Addr} (hne : as ≠ []) (hnd : as.Nodup)
    (hfree : ∀ a ∈ as, s.arena.allocated a = false) :
    Ok cfg t s g (s.newChain as) { g with owner := giveTo g.owner t as } := by
  have hpages := h.pages.newChain (t := t) hne hnd hfree
  obtain ⟨hold, hclean, hpath, heap', arena', hs⟩ := newChain_spec s hne hnd
  -- nobody owned the new addresses
  have hown : ∀ a, g.owner a ≠ .free → a ∉ as := fun a ha hc => ha (h.pages.freed a (hfree a hc))
  rw [hs] at hold hpages ⊢
  refine ok_private h (fun a k => ?_) (fun a k ha => hold a (hown a (by simp [ha]))) hpages
    (fun a => ?_) (fun a ha => ?_) (fun u a hu => ?_)
    (fun u a _ ha => hold a (hown a (by simp [ha])))
  · by_cases haa : a ∈ as
    · rw [giveTo_of_mem haa, h.pages.freed a (hfree a haa)]
      simp
    · rw [giveTo_of_notMem haa]
  · rw [← h.pool_iff a]
    by_cases haa : a ∈ as
    · rw [giveTo_of_mem haa, h.pages.freed a (hfree a haa)]
      simp
    · rw [giveTo_of_notMem haa]
  · have hh : heap' a = s.heap a := hold a (hown a (by rw [(h.pool_iff a).mpr ha]; simp))
    rw [hh]
    exact h.pool_clean a ha
  · by_cases haa : a ∈ as
    · rw [giveTo_of_mem haa, h.pages.freed a (hfree a haa)]
      simp [Ne.symm hu]
    · rw [giveTo_of_notMem haa]

/-- Freeing a block that `t` holds and that has no value to drop. -/
theorem ok_free (h : Inv cfg s g) (ha : g.owner a = .held t)
    (hd : (s.heap a).drops cfg = []) :
    Ok cfg t s g (s.free cfg a) { g with owner := update g.owner a .free } := by
  have hpages := h.pages.free cfg (a := a) (by simp [ha])
  have hs : s.free cfg a = { s with arena := (s.free cfg a).arena } := by
    unfold Shared.free
    rw [hd, List.append_nil]
  rw [hs]
  refine ok_private h (fun b k => update_owner_iff ha (by simp) b) (fun _ _ _ => rfl) hpages
    (fun b => (update_owner_iff ha (by simp) b).trans (h.pool_iff b)) h.pool_clean
    (fun u b hu => update_owner_iff ha ?_ b) (fun _ _ _ _ => rfl)
  simp [Ne.symm hu]

/-- Taking the block of the pool. -/
theorem ok_takePool (h : Inv cfg s g) (ha : s.pool = some a) :
    Ok cfg t s g { s with pool := none } { g with owner := update g.owner a (.held t) } := by
  have hown := (h.pool_iff a).mpr ha
  refine ok_private h (fun b k => update_owner_iff hown (by simp) b) (fun _ _ _ => rfl)
    (h.pages.congr fun b => update_owner_iff hown (by simp) b)
    (fun b => ?_) nofun
    (fun u b hu => update_owner_iff hown (by simp [Ne.symm hu]) b) (fun _ _ _ _ => rfl)
  by_cases hba : b = a
  · subst hba
    simp
  · rw [update_of_ne hba, h.pool_iff b, ha]
    simp [Ne.symm hba]

/-- Putting a clean block into the empty pool. -/
theorem ok_putPool (h : Inv cfg s g) (hp : s.pool = none) (ha : g.owner a = .held t)
    (hc : (s.heap a).Clean) (hn : (s.heap a).next = none) :
    Ok cfg t s g { s with pool := some a } { g with owner := update g.owner a .pooled } := by
  refine ok_private h (fun b k => update_owner_iff ha (by simp) b) (fun _ _ _ => rfl)
    (h.pages.congr fun b => update_owner_iff ha (by simp) b)
    (fun b => ?_) (fun b hb => ?_)
    (fun u b hu => update_owner_iff ha (by simp [Ne.symm hu]) b) (fun _ _ _ _ => rfl)
  · by_cases hba : b = a
    · subst hba
      simp
    · rw [update_of_ne hba, h.pool_iff b, hp]
      simp [Ne.symm hba]
  · cases hb
    exact ⟨hc, hn⟩

/-! ## Private lists -/

/-- `t` gets one more block. -/
theorem Keeps.gain (h : Keeps t g l) (a : Addr)
    (hg : g'.owner = update g.owner a (.held t)) : Keeps t g' (a :: l) := by
  intro b hb
  by_cases hba : b = a
  · exact hba ▸ List.mem_cons_self
  · rw [hg, update_of_ne hba] at hb
    exact List.mem_cons_of_mem _ (h b hb)

/-- `t` gives a block away. -/
theorem Keeps.lose {l l' : List Addr} (h : Keeps t g l) {x : Own Tid}
    (hx : x ≠ .held t) (hg : g'.owner = update g.owner a x)
    (hl : ∀ b ∈ l, b ≠ a → b ∈ l') : Keeps t g' l' := by
  intro b hb
  rw [hg] at hb
  obtain ⟨hba, hown⟩ := owner_of_update hx hb
  exact hl b (h b hown) hba

theorem Keeps.give {l as : List Addr} (h : Keeps t g l)
    (hg : g'.owner = giveTo g.owner t as) : Keeps t g' (l ++ as) := by
  intro b hb
  by_cases hba : b ∈ as
  · exact List.mem_append_right _ hba
  · rw [hg, giveTo_of_notMem hba] at hb
    exact List.mem_append_left _ (h b hb)

theorem Keeps.link (h : Keeps t g l) {n : ℕ}
    (hg : g'.owner = chainOwner g.owner n l) : Keeps t g' [] := by
  intro b hb
  rw [hg] at hb
  obtain ⟨hbl, hown⟩ := chainOwner_held hb
  exact absurd (h b hown) hbl

/-- Private lists do not see changes elsewhere. -/
theorem Owned.of_eq (h : Owned t s g l) (hown : ∀ a ∈ l, g'.owner a = g.owner a)
    (hheap : ∀ a ∈ l, s'.heap a = s.heap a) : Owned t s' g' l := by
  refine ⟨h.1, fun a ha => ?_⟩
  rw [hown a ha, hheap a ha]
  exact h.2 a ha

theorem Linked.of_eq (h : Linked s l) (hheap : ∀ a ∈ l, s'.heap a = s.heap a) :
    Linked s' l := by
  refine path_congr (fun a ha => ?_) h
  show (s'.heap a).next = (s.heap a).next
  rw [hheap a ha]

theorem owned_nil : Owned t s g [] := ⟨List.nodup_nil, nofun⟩

theorem linked_nil : Linked s [] := rfl

theorem Linked.tail {b : Addr} (h : Linked s (b :: l)) : Linked s l := by
  have htail : LinkPath s.next (s.next b) l none := h.2
  rwa [path_head htail] at htail

/-- A block of the chain is in no private list. -/
theorem Owned.ne_chain {k : ℕ} (h : Owned t s g l) (ha : g.owner a = .chain k) : a ∉ l := by
  intro hc
  have := (h.2 a hc).1
  simp [ha] at this

theorem modBlock_next (s : Shared T) (a : Addr) (p : Option Addr) :
    (s.modBlock a (·.setNext p)).next = update s.next a p := by
  funext b
  by_cases hb : b = a
  · subst hb
    simp [Shared.next, Shared.modBlock, Block.setNext]
  · simp [Shared.next, Shared.modBlock, update_of_ne hb]

/-- Writing a link keeps private lists owned and clean. -/
theorem Owned.setNext (h : Owned t s g l) (a : Addr) (p : Option Addr) :
    Owned t (s.modBlock a (·.setNext p)) g l := by
  refine ⟨h.1, fun b hb => ⟨(h.2 b hb).1, ?_⟩⟩
  have hclean := (h.2 b hb).2
  by_cases hba : b = a
  · subst hba
    simpa [Shared.modBlock, Block.setNext, Block.Clean] using hclean
  · simpa [Shared.modBlock, update_of_ne hba] using hclean

/-- Writing a link outside a list keeps the list linked. -/
theorem Linked.setNext (h : Linked s l) (ha : a ∉ l)
    (p : Option Addr) : Linked (s.modBlock a (·.setNext p)) l := by
  unfold Linked
  rw [modBlock_next]
  exact path_update ha h p

/-- `BlockChain::give` links the second chain behind the first. -/
theorem give_linked {self other : List Addr} (hnd : (self ++ other).Nodup) (hs : Linked s self)
    (hl : Linked s other) : Linked (s.give self other).1 (self ++ other) := by
  unfold Shared.give
  split
  · rename_i z b hz hb
    unfold Linked
    rw [modBlock_next, ← hb]
    exact path_join hnd hz hs hl
  · rename_i hnone
    cases hz : self.getLast? with
    | none =>
      obtain rfl := List.getLast?_eq_none_iff.mp hz
      exact hl
    | some z =>
      cases other with
      | nil => rwa [List.append_nil]
      | cons b rest => exact absurd rfl (hnone z b hz)

/-- **`BlockChain::give`** joins two private chains. -/
theorem give_ok (h : Inv cfg s g) {self other : List Addr} (ho : Owned t s g (self ++ other))
    (hs : Linked s self) (hl : Linked s other) :
    ∃ s', s.give self other = (s', self ++ other) ∧ Ok cfg t s g s' g ∧
      Owned t s' g (self ++ other) ∧ Linked s' (self ++ other) ∧
      ∃ heap', s' = { s with heap := heap' } := by
  have hlinked := give_linked ho.1 hs hl
  unfold Shared.give at hlinked ⊢
  split at hlinked
  · rename_i z b hz _
    have hzown : g.owner z = .held t :=
      (ho.2 z (List.mem_append_left _ (List.mem_of_getLast? hz))).1
    exact ⟨_, rfl, ok_modBlock h hzown _ rfl, ho.setNext z _, hlinked, _, rfl⟩
  · exact ⟨s, rfl, Ok.refl h, ho, hlinked, s.heap, rfl⟩

/-! ## One step of a thread -/

/-- The step of `t` that ends in `r` keeps the proof outline. -/
def StepOk (cfg : Config) (t : Tid) (s : Shared T) (g : Ghost T) (r : Shared T × Pc T) : Prop :=
  ∃ g', Ok cfg t s g r.1 g' ∧ Local cfg t r.1 g' r.2

theorem StepOk.after {r : Shared T × Pc T} (hok : Ok cfg t s g s' g')
    (h : StepOk cfg t s' g' r) : StepOk cfg t s g r := by
  obtain ⟨g'', hok', hl⟩ := h
  exact ⟨g'', hok.trans hok', hl⟩

/-- `t` is not initialising the queue, holds neither head, and has nothing to
publish or to read. -/
structure Unlocked (t : Tid) (g : Ghost T) : Prop where
  init : g.stage ≠ .opening t
  prod : g.pown ≠ some t
  cons : g.cown ≠ some t
  idle : g.L.Pending t 0 0
  covers : g.L.Covers t 0 0

theorem Local.unlocked {pc : Pc T} (h : Local cfg t s g pc) (hI : pc.holdsI = false)
    (hP : pc.holdsP = false) (hC : pc.holdsC cfg = false) (hW : pc.writing = false)
    (hR : pc.reading = false) : Unlocked t g := by
  refine ⟨fun hc => ?_, fun hc => ?_, fun hc => ?_, h.pending hW, h.covers hR⟩
  · simp [h.holdsI.mp hc] at hI
  · simp [h.holdsP.mp hc] at hP
  · simp [h.holdsC.mp hc] at hC

theorem Unlocked.toLocal {pc : Pc T} (h : Unlocked t g) (hI : pc.holdsI = false)
    (hP : pc.holdsP = false) (hC : pc.holdsC cfg = false) (hk : Keeps t g pc.owns)
    (hh : At.Pc cfg t s g pc) : Local cfg t s g pc := by
  refine ⟨?_, ?_, ?_, fun _ => h.idle, fun _ => h.covers, hk, hh⟩
  · simp [hI, h.init]
  · simp [hP, h.prod]
  · simp [hC, h.cons]

theorem ret_ok (h : Inv cfg s g) (hu : Unlocked t g) (hk : Keeps t g [])
    (hd : Done s g t op res) : StepOk cfg t s g (ret s t op res) :=
  ⟨g, ok_trace h hd, hu.toLocal rfl rfl rfl hk trivial⟩

end Mpmc
