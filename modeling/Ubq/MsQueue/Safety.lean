/-
# Safety of the Michael and Scott baseline

What each step preserves, and the theorem about every run in which the head never
passes the tail: no dereference finds a freed node, and the log of the
linearization points explains what the operations return.
-/
import Ubq.MsQueue.Inv

namespace MsQueue

open Function Interleave

open Fifo (Event eventsOf Replay Linear)

variable {α : Type*} {s s' : Shared α} {g g' : Ghost} {t u : ℕ}
variable {pc : Pc α} {a : Addr}

/-- The step of `t` to `s'` and `pc` re-establishes the outline. -/
def Kept (t : ℕ) (s : Shared α) (g : Ghost) (s' : Shared α) (pc : Pc α) : Prop :=
  ∃ g', Inv s' g' ∧ Local t s' g' pc ∧ ∀ u, u ≠ t → Rely u s g s' g'

theorem Rely.refl (u : ℕ) (s : Shared α) (g : Ghost) : Rely u s g s g :=
  ⟨.rfl, rfl, rfl, fun _ _ h => ⟨h, rfl, fun _ h => h, id, id⟩, fun _ h => ⟨h, rfl⟩,
    fun _ h => h, fun _ => .rfl, fun _ _ => rfl⟩

theorem same_kept (hG : Inv s g) (hl : Local t s g pc) : Kept t s g s pc :=
  ⟨g, hG, hl, fun u _ => .refl u s g⟩

/-- Outside of `popTake` a thread is nobody's taker. -/
theorem Local.no_taker (h : Local t s g pc) (hpc : pc.takes = none) : g.taker a ≠ some t := by
  intro ha
  simp [h.takes a ha] at hpc

/-- One node changes its status. -/
theorem update_iff {f : Addr → Status} {st : Status} {P : Status → Prop}
    {Q R : Addr → Prop} (h : ∀ b, P (f b) ↔ Q b) (hself : P st ↔ R a)
    (hother : ∀ b, b ≠ a → (R b ↔ Q b)) (b : Addr) : P (update f a st b) ↔ R b := by
  by_cases hba : b = a
  · subst hba
    rwa [update_self]
  · rw [update_of_ne hba, h b, hother b hba]

/-! ## Allocation, pinning, freeing -/

/-- A node changes its status. -/
def Ghost.setStatus (g : Ghost) (a : Addr) (status : Status) : Ghost :=
  { g with status := update g.status a status }

/-- Whether a node may be touched does not depend on where in its life it is. -/
theorem safe_congr (hold : g'.old = g.old)
    (hlive : ∀ b, g'.status b = .free ↔ g.status b = .free) {b : Addr} :
    Safe u g' b ↔ Safe u g b := by
  constructor
  · intro h
    exact ⟨fun hb => h.live ((hlive b).mpr hb), hold ▸ h.young⟩
  · intro h
    exact ⟨fun hb => h.live ((hlive b).mp hb), hold.symm ▸ h.young⟩

theorem update_free_iff (a : Addr) (st : Status) (ha : g.status a ≠ .free) (hst : st ≠ .free)
    (b : Addr) : update g.status a st b = .free ↔ g.status b = .free := by
  by_cases hb : b = a
  · subst hb
    simp [ha, hst]
  · rw [update_of_ne hb]

/-- A new node is private, and old for nobody. -/
def Ghost.alloc (g : Ghost) (t : ℕ) (a : Addr) : Ghost :=
  { g.setStatus a (.priv t) with old := fun u => update (g.old u) a false }

theorem alloc_safe {a b : Addr} (hba : b ≠ a) : Safe u (g.alloc t a) b ↔ Safe u g b := by
  constructor
  · rintro ⟨h1, h2⟩
    exact ⟨by simpa [Ghost.alloc, Ghost.setStatus, hba] using h1,
      by simpa [Ghost.alloc, hba] using h2⟩
  · rintro ⟨h1, h2⟩
    exact ⟨by simpa [Ghost.alloc, Ghost.setStatus, hba] using h1,
      by simpa [Ghost.alloc, hba] using h2⟩

theorem alloc_kept {v : α} (hG : Inv s g) (hl : Local t s g .idle)
    (hlive : s.live a = false) : Kept t s g (s.alloc a v) (.pushPin a v) := by
  have hfree : g.status a = .free := by
    by_contra h
    simp [(hG.live a).mpr h] at hlive
  have hspine : a ∉ g.spine := by
    intro h
    simp [(hG.linked a).mpr h] at hfree
  have hret : s.retired a ≠ true := by
    rw [Ne, hG.retired a, hfree]
    simp
  have hstatus : ∀ b, b ≠ a → (g.alloc t a).status b = g.status b :=
    fun b hb => update_of_ne hb _ _
  have hself : (g.alloc t a).status a = .priv t := update_self _ _ _
  have hnext : ∀ b, b ≠ a → (s.alloc a v).next b = s.next b :=
    fun b hb => update_of_ne hb _ _
  have hdata : ∀ b, b ≠ a → (s.alloc a v).data b = s.data b :=
    fun b hb => update_of_ne hb _ _
  have hsafe : ∀ u b, Safe u g b → b ≠ a := by
    rintro u b h rfl
    exact h.live hfree
  refine ⟨g.alloc t a,
    ⟨?_, hG.nodup, fun b => ?_, fun b => ?_, fun b => ?_, hG.tail, fun b hb => ?_,
    fun b hb => ?_, fun u hu b hb hold => ?_, fun u hu b n hb hn => ?_, fun u b hold => ?_,
    fun b u hb => ?_, ?_⟩, ⟨⟨hl.here, hself, ?_⟩, ?_⟩, fun u hu => ?_⟩
  · exact path_congr (fun b hb => hnext b fun h => hspine (h ▸ hb)) hG.path
  · exact update_iff (P := (· = .linked)) hG.linked (by simp [hspine]) (fun _ _ => .rfl) b
  · refine (update_iff (P := (· ≠ .free)) (R := fun b => (s.alloc a v).live b = true)
      (fun b => (hG.live b).symm) ?_ (fun b hb => ?_) b).symm
    · simp [Shared.alloc]
    · simp [Shared.alloc, hb]
  · refine (update_iff (P := (· = .retired)) (fun b => (hG.retired b).symm) ?_
      (fun _ _ => .rfl) b).symm
    simpa [Shared.alloc] using hret
  · have hba : b ≠ a := by
      rintro rfl
      rw [hself] at hb
      simp [Status.gone] at hb
    rw [hnext b hba]
    exact hG.gone b (hstatus b hba ▸ hb)
  · by_cases hba : b = a
    · subst hba
      exact update_self _ _ _
    · rw [hnext b hba]
      exact hG.priv b (hstatus b hba ▸ hb)
  · have hba : b ≠ a := by
      rintro rfl
      simp [hself] at hb
    refine hG.guards u hu b (hstatus b hba ▸ hb) ?_
    simpa [Ghost.alloc, hba] using hold
  · have hba : b ≠ a := by
      rintro rfl
      simp [Shared.alloc] at hn
    rw [hnext b hba] at hn
    have hn' := hG.closed u hu b n ((alloc_safe hba).mp hb) hn
    exact (alloc_safe (hsafe u n hn')).mpr hn'
  · by_cases hba : b = a
    · subst hba
      simp [Ghost.alloc] at hold
    · rw [hstatus b hba]
      exact hG.old u b (by simpa [Ghost.alloc, hba] using hold)
  · obtain ⟨hp, hs, hwhere⟩ := hG.taker b u hb
    have hba := hsafe u b hs
    exact ⟨hp, (alloc_safe hba).mpr hs, by rw [hstatus b hba]; exact hwhere⟩
  · obtain ⟨q, hq, hmap⟩ := hG.queue
    refine ⟨q, hq, ?_⟩
    rw [← hmap]
    apply List.map_congr_left
    intro b hb
    exact hdata b fun h => hspine (h ▸ List.mem_of_mem_tail hb)
  · exact update_self _ _ _
  · exact fun b hb => absurd hb (hl.no_taker rfl)
  · refine ⟨.rfl, rfl, rfl, fun _ b hb => ?_, fun b hb => ?_, fun b hb => ?_, fun _ => .rfl,
      fun b hb => ?_⟩
    · have hba := hsafe u b hb
      refine ⟨(alloc_safe hba).mpr hb, update_of_ne hba _ _, fun n hn => ?_, ?_, ?_⟩
      · rwa [hnext b hba]
      · rw [hstatus b hba]
        exact id
      · rw [hstatus b hba]
        exact id
    · have hba : b ≠ a := by
        rintro rfl
        simp [hfree] at hb
      exact ⟨(hstatus b hba).trans hb, hdata b hba⟩
    · have hba : b ≠ a := by
        rintro rfl
        simp [hfree] at hb
      exact (hstatus b hba).trans hb
    · exact hdata b (hsafe u b (hG.taker b u hb).2.1)

/-- A pinned thread trusts the nodes that have not left the list. -/
def Ghost.pin (g : Ghost) (t : ℕ) : Ghost :=
  { g with old := update g.old t fun a => (g.status a).gone }

theorem pin_inv (hG : Inv s g) (htaker : ∀ a, g.taker a ≠ some t) : Inv (s.pin t) (g.pin t) := by
  have hother : ∀ u, u ≠ t → (g.pin t).old u = g.old u := fun u hu => update_of_ne hu _ _
  have hself : ∀ a, (g.pin t).old t a = (g.status a).gone := by
    intro a
    simp [Ghost.pin]
  have hpinned : ∀ u, u ≠ t → u ∈ (s.pin t).pinned → u ∈ s.pinned := by
    intro u hu h
    simpa [Shared.pin, hu] using h
  refine { hG with guards := fun u hu a ha hold => ?_, closed := fun u hu a n ha hn => ?_, old :=
    fun u a hold => ?_, taker := fun a u ha => ?_ }
  · by_cases hut : u = t
    · subst hut
      have hst : g.status a = .retired := ha
      rw [hself, hst] at hold
      simp [Status.gone] at hold
    · exact hG.guards u (hpinned u hut hu) a ha (by rwa [hother u hut] at hold)
  · by_cases hut : u = t
    · subst hut
      have hlive : g.status a ≠ .free := ha.live
      have hyoung := ha.young
      rw [hself] at hyoung
      have hmem : a ∈ g.spine := by
        rw [← hG.linked]
        cases hst : g.status a with
        | free => exact absurd hst hlive
        | priv w =>
          have hnone := hG.priv a (by simp [hst, Status.isPriv])
          have hn' : s.next a = some n := hn
          simp [hnone] at hn'
        | linked => rfl
        | unlinked w => simp [hst, Status.gone] at hyoung
        | retired => simp [hst, Status.gone] at hyoung
      have hstatus := (hG.linked n).mpr (next_linked hG hmem hn)
      refine ⟨?_, ?_⟩
      · show g.status n ≠ _
        simp [hstatus]
      · rw [hself, hstatus]
        rfl
    · have hsafe : Safe u g a := ⟨ha.live, by have := ha.young; rwa [hother u hut] at this⟩
      have hn' := hG.closed u (hpinned u hut hu) a n hsafe hn
      exact ⟨hn'.live, by rw [hother u hut]; exact hn'.young⟩
  · by_cases hut : u = t
    · subst hut
      rw [hself] at hold
      exact .inl hold
    · exact hG.old u a (by rwa [hother u hut] at hold)
  · have hut : u ≠ t := by
      rintro rfl
      exact htaker a ha
    obtain ⟨hp, hs, hwhere⟩ := hG.taker a u ha
    exact ⟨List.mem_cons_of_mem _ hp, ⟨hs.live, by rw [hother u hut]; exact hs.young⟩, hwhere⟩

theorem pin_rely (hu : u ≠ t) : Rely u s g (s.pin t) (g.pin t) := by
  have hother : (g.pin t).old u = g.old u := update_of_ne hu _ _
  refine ⟨?_, rfl, rfl, fun _ a ha => ⟨⟨ha.live, ?_⟩, rfl, fun _ h => h, id, id⟩,
    fun _ h => ⟨h, rfl⟩, fun _ h => h, fun _ => .rfl, fun _ _ => rfl⟩
  · simp [Shared.pin, hu]
  · rw [hother]
    exact ha.young

/-- A node is freed when nobody who may touch it is pinned. -/
theorem free_kept (hG : Inv s g) (hl : Local t s g .idle) (hret : s.retired a = true)
    (hguards : s.guards a = []) : Kept t s g (s.free a) .idle := by
  have hretired : g.status a = .retired := (hG.retired a).mp hret
  have hsafe : ∀ u, u ∈ s.pinned → ∀ b, Safe u g b → b ≠ a := by
    rintro u hu b hb rfl
    exact safe_guarded hG hu hb hret hguards
  have hstatus : ∀ b, b ≠ a → (g.setStatus a .free).status b = g.status b :=
    fun b hb => update_of_ne hb _ _
  have hself : (g.setStatus a .free).status a = .free := update_self _ _ _
  have hiff : ∀ u b, b ≠ a → (Safe u (g.setStatus a .free) b ↔ Safe u g b) := by
    intro u b hb
    constructor
    · exact fun h => ⟨hstatus b hb ▸ h.live, h.young⟩
    · exact fun h => ⟨(hstatus b hb).symm ▸ h.live, h.young⟩
  have hnot : ∀ u, ¬ Safe u (g.setStatus a .free) a := fun u h => h.live hself
  refine ⟨g.setStatus a .free, ⟨hG.path, hG.nodup, fun b => ?_, fun b => ?_, fun b => ?_, hG.tail,
    fun b hb => ?_, fun b hb => ?_, fun u hu b hb hold => ?_, fun u hu b n hb hn => ?_,
    fun u b hold => ?_, fun b u hb => ?_, hG.queue⟩, ⟨hl.here, hl.takes⟩, fun u hu => ?_⟩
  · refine update_iff (P := (· = .linked)) hG.linked ?_ (fun _ _ => .rfl) b
    rw [← hG.linked, hretired]
    simp
  · refine (update_iff (P := (· ≠ .free)) (R := fun b => (s.free a).live b = true)
      (fun b => (hG.live b).symm) ?_ (fun b hb => ?_) b).symm
    · simp [Shared.free]
    · simp [Shared.free, hb]
  · refine (update_iff (P := (· = .retired)) (R := fun b => (s.free a).retired b = true)
      (fun b => (hG.retired b).symm) ?_ (fun b hb => ?_) b).symm
    · simp [Shared.free]
    · simp [Shared.free, hb]
  · have hba : b ≠ a := by
      rintro rfl
      rw [hself] at hb
      simp [Status.gone] at hb
    exact hG.gone b (hstatus b hba ▸ hb)
  · have hba : b ≠ a := by
      rintro rfl
      rw [hself] at hb
      simp [Status.isPriv] at hb
    exact hG.priv b (hstatus b hba ▸ hb)
  · have hba : b ≠ a := by
      rintro rfl
      simp [hself] at hb
    exact hG.guards u hu b (hstatus b hba ▸ hb) hold
  · have hba : b ≠ a := by
      rintro rfl
      exact hnot u hb
    have hn' := hG.closed u hu b n ((hiff u b hba).mp hb) hn
    exact (hiff u n (hsafe u hu n hn')).mpr hn'
  · by_cases hba : b = a
    · subst hba
      exact .inr hself
    · rw [hstatus b hba]
      exact hG.old u b hold
  · obtain ⟨hp, hs, hwhere⟩ := hG.taker b u hb
    have hba := hsafe u hp b hs
    exact ⟨hp, (hiff u b hba).mpr hs, by rw [hstatus b hba]; exact hwhere⟩
  · refine ⟨.rfl, rfl, rfl, fun hp b hb => ?_, fun b hb => ⟨?_, rfl⟩, fun b hb => ?_, fun _ => .rfl,
      fun _ _ => rfl⟩
    · have hba := hsafe u hp b hb
      refine ⟨(hiff u b hba).mpr hb, rfl, fun _ h => h, ?_, ?_⟩
      · rw [hstatus b hba]
        exact id
      · rw [hstatus b hba]
        exact id
    · have hba : b ≠ a := by
        rintro rfl
        simp [hretired] at hb
      exact (hstatus b hba).trans hb
    · have hba : b ≠ a := by
        rintro rfl
        simp [hretired] at hb
      exact (hstatus b hba).trans hb

/-! ## Pushing -/

/-- The node of `t` joins the list. -/
def Ghost.link (g : Ghost) (node : Addr) : Ghost :=
  { g.setStatus node .linked with spine := g.spine ++ [node] }

theorem link_kept {node : Addr} {v : α} {tail : Ptr} (hG : Inv s g)
    (hl : Local t s g (.pushLink node v tail)) (hnone : s.next tail.addr = none) :
    Kept t s g ((s.link tail.addr node).logs t (.push v)) (.pushSwing node v tail) := by
  obtain ⟨hpending, ⟨hpriv, hdata⟩, hheld⟩ := hl.here
  have htail := last_linked hG hheld hnone
  obtain ⟨l, hspine, hnotin⟩ := spine_last hG htail hnone
  have hnode : node ∉ g.spine := by
    intro h
    simp [(hG.linked node).mpr h] at hpriv
  have hne : node ≠ tail.addr := fun h => hnode (h ▸ htail)
  have hstatus : ∀ b, b ≠ node → (g.link node).status b = g.status b :=
    fun b hb => update_of_ne hb _ _
  have hself : (g.link node).status node = .linked := update_self _ _ _
  have hnext : ∀ b, b ≠ tail.addr →
      ((s.link tail.addr node).logs t (.push v)).next b = s.next b :=
    fun b hb => update_of_ne hb _ _
  have hnextTail : ((s.link tail.addr node).logs t (.push v)).next tail.addr = some node :=
    update_self _ _ _
  have hsafe : ∀ u b, Safe u (g.link node) b ↔ Safe u g b := by
    intro u b
    apply safe_congr
    · rfl
    · exact update_free_iff node .linked (by simp [hpriv]) (by simp)
  have hgone : ∀ b, ((g.link node).status b).gone = (g.status b).gone := by
    intro b
    by_cases hb : b = node
    · subst hb
      rw [hself, hpriv]
      rfl
    · rw [hstatus b hb]
  have hyoung : ∀ u, g.old u node = false := by
    intro u
    by_contra h
    rcases hG.old u node (by simpa using h) with h | h <;> simp [hpriv, Status.gone] at h
  refine ⟨g.link node, ⟨?_, ?_, fun b => ?_, fun b => ?_, fun b => ?_, ?_, fun b hb => ?_,
    fun b hb => ?_, fun u hu b hb hold => ?_, fun u hu b n hb hn => ?_, fun u b hold => ?_,
    fun b u hb => ?_, ?_⟩, ⟨⟨?_, ⟨hheld.pinned, (hsafe t _).mpr hheld.safe, ?_, hheld.life⟩,
    hnextTail⟩, fun a ha => absurd ha (hl.no_taker rfl)⟩, fun u hu => ?_⟩
  · show LinkPath _ _ (g.spine ++ [node]) none
    rw [path_append]
    refine ⟨some node, ?_, rfl, ?_⟩
    · have hpath := hG.path
      rw [hspine] at hpath ⊢
      exact path_redirect hnotin hpath
    · rw [hnext node hne]
      exact hG.priv node (by simp [hpriv, Status.isPriv])
  · exact List.Nodup.append hG.nodup (by simp) (by simpa using hnode)
  · refine update_iff (P := (· = .linked)) hG.linked ?_ (fun b hb => ?_) b
    · simp [Ghost.link]
    · simp [Ghost.link, hb]
  · refine (update_iff (P := (· ≠ .free)) (fun b => (hG.live b).symm) ?_ (fun _ _ => .rfl) b).symm
    have hlive := (hG.live node).mpr (by simp [hpriv])
    simpa [Shared.link, Shared.logs] using hlive
  · refine (update_iff (P := (· = .retired)) (fun b => (hG.retired b).symm) ?_
      (fun _ _ => .rfl) b).symm
    have hret := hG.retired node
    rw [hpriv] at hret
    simpa [Shared.link, Shared.logs] using hret
  · exact List.mem_append_left _ hG.tail
  · rw [hgone] at hb
    by_cases hbt : b = tail.addr
    · subst hbt
      simp [hnextTail]
    · rw [hnext b hbt]
      exact hG.gone b hb
  · have hbn : b ≠ node := by
      rintro rfl
      rw [hself] at hb
      simp [Status.isPriv] at hb
    rw [hstatus b hbn] at hb
    have hbt : b ≠ tail.addr := by
      rintro rfl
      rw [(hG.linked _).mpr htail] at hb
      simp [Status.isPriv] at hb
    rw [hnext b hbt]
    exact hG.priv b hb
  · have hbn : b ≠ node := by
      rintro rfl
      simp [hself] at hb
    exact hG.guards u hu b (hstatus b hbn ▸ hb) hold
  · rw [hsafe] at hb ⊢
    by_cases hbt : b = tail.addr
    · subst hbt
      rw [hnextTail] at hn
      cases hn
      exact ⟨by simp [hpriv], hyoung u⟩
    · rw [hnext b hbt] at hn
      exact hG.closed u hu b n hb hn
  · have hbn : b ≠ node := by
      rintro rfl
      simp [show (g.link b).old u b = g.old u b from rfl, hyoung u] at hold
    rw [hstatus b hbn]
    exact hG.old u b hold
  · obtain ⟨hp, hs, hwhere⟩ := hG.taker b u hb
    exact ⟨hp, (hsafe u b).mpr hs, by rw [hgone]; exact hwhere⟩
  · obtain ⟨q, hq, hmap⟩ := hG.queue
    refine ⟨q ++ [v], ?_, ?_⟩
    · simpa [Shared.logs, Shared.link] using Replay.push hq
    · obtain ⟨rest, hrest⟩ := head_mem hG
      rw [hrest] at hmap
      show (g.spine ++ [node]).tail.map s.data = _
      simp only [hrest, List.cons_append, List.tail_cons, List.map_append, List.map_cons,
        List.map_nil, hdata]
      rw [show rest.map s.data = q.map some from hmap]
  · unfold Pending at hpending ⊢
    simp only [Shared.logs, Shared.link, Fifo.eventsOf_self, hpending, List.append_nil]
  · have hbt : tail.addr ≠ node := hne.symm
    rw [hstatus _ hbt]
    exact hheld.shared
  · refine ⟨.rfl, Fifo.eventsOf_other hu.symm _ _, rfl, fun _ b hb => ⟨(hsafe u b).mpr hb, rfl,
      fun n hn => ?_, fun h => ?_, ?_⟩, fun b hb => ?_, fun b hb => ?_, fun _ => .rfl,
      fun _ _ => rfl⟩
    · have hbt : b ≠ tail.addr := by
        rintro rfl
        simp [hnone] at hn
      rwa [hnext b hbt]
    · by_cases hbn : b = node
      · subst hbn
        rw [hself]
        rfl
      · rwa [hstatus b hbn]
    · rw [hgone]
      exact id
    · have hbn : b ≠ node := by
        rintro rfl
        rw [hpriv] at hb
        exact hu (Status.priv.inj hb).symm
      exact ⟨(hstatus b hbn).trans hb, rfl⟩
    · have hbn : b ≠ node := by
        rintro rfl
        simp [hpriv] at hb
      exact (hstatus b hbn).trans hb

/-- The tail moves to the successor of the node it points at. -/
theorem swing_kept {tail : Ptr} {n : Addr} (hG : Inv s g)
    (hn : s.next tail.addr = some n)
    (hl : ∀ s', s' = s ∨ s' = s.setTail n → Local t s' g pc) :
    Kept t s g (if s.tail = tail.addr then s.setTail n else s) pc := by
  split
  · rename_i htail
    have hmem : n ∈ g.spine := next_linked hG (htail ▸ hG.tail) hn
    exact ⟨g, { hG with tail := hmem }, hl _ (.inr rfl), fun u _ =>
      ⟨.rfl, rfl, rfl, fun _ _ h => ⟨h, rfl, fun _ h => h, id, id⟩, fun _ h => ⟨h, rfl⟩,
        fun _ h => h, fun _ => .rfl, fun _ _ => rfl⟩⟩
  · exact same_kept hG (hl _ (.inl rfl))

/-! ## Returning -/

/-- The guard is dropped and the operation returns. -/
theorem return_kept {e : Event α} (hG : Inv s g) (hl : Local t s g pc)
    (hpc : pc.takes = none) (hpending : Pending t s [e]) :
    Kept t s g ((s.unpin t).returns t e) .idle := by
  have hpinned : ∀ u, u ∈ ((s.unpin t).returns t e).pinned ↔ u ∈ s.pinned ∧ u ≠ t := by
    intro u
    simp [Shared.unpin, Shared.returns]
  refine ⟨g, { hG with
      guards := fun u hu a ha hold => ?_
      closed := fun u hu => hG.closed u ((hpinned u).mp hu).1
      taker := fun a u ha => ?_ },
    ⟨?_, fun a ha => absurd ha (hl.no_taker hpc)⟩, fun u hu => ?_⟩
  · obtain ⟨hu, hut⟩ := (hpinned u).mp hu
    have hmem := hG.guards u hu a ha hold
    simpa [Shared.unpin, Shared.returns, hut] using hmem
  · obtain ⟨hp, hrest⟩ := hG.taker a u ha
    have hut : u ≠ t := by
      rintro rfl
      exact hl.no_taker hpc ha
    exact ⟨(hpinned u).mpr ⟨hp, hut⟩, hrest⟩
  · show Pending t _ []
    unfold Pending at hpending ⊢
    simpa [Shared.unpin, Shared.returns, Fifo.eventsOf_self] using hpending
  · refine ⟨?_, rfl, Fifo.eventsOf_other hu.symm _ _, fun _ _ h => ⟨h, rfl, fun _ h => h, id, id⟩,
      fun _ h => ⟨h, rfl⟩, fun _ h => h, fun _ => .rfl, fun _ _ => rfl⟩
    rw [hpinned]
    exact ⟨fun h => h.1, fun h => ⟨h, hu⟩⟩

/-! ## Popping -/

/-- A pop that finds the list empty. -/
theorem empty_kept {head : Ptr} (hG : Inv s g) (hl : Local t s g (.popNext head))
    (hnone : s.next head.addr = none) : Kept t s g (s.logs t (.pop none)) (.popped none) := by
  obtain ⟨hpending, hheld, hwhere⟩ := hl.here
  have hmem := last_linked hG hheld hnone
  have hhead : head.addr = s.head := by
    rcases hwhere with h | h
    · exact h
    · exact absurd hnone (hG.gone _ h)
  obtain ⟨l, hspine, hnotin⟩ := spine_last hG hmem hnone
  have hempty : g.spine.tail = [] := by
    obtain ⟨rest, hrest⟩ := head_mem hG
    cases l with
    | nil => simp [hspine]
    | cons b l =>
      rw [hspine, List.cons_append] at hrest
      have hb : b = s.head := (List.cons.inj hrest).1
      exact absurd (hhead.trans hb.symm) (by rintro h; exact hnotin (h ▸ List.mem_cons_self))
  refine ⟨g, { hG with queue := ?_ }, ⟨?_, fun a ha => absurd ha (hl.no_taker rfl)⟩, fun u hu => ?_⟩
  · obtain ⟨q, hq, hmap⟩ := hG.queue
    rw [hempty] at hmap
    obtain rfl : q = [] := by simpa using hmap.symm
    refine ⟨[], ?_, hmap.symm ▸ congrArg _ hempty⟩
    simpa [Shared.logs] using Replay.empty hq
  · show Pending t _ _
    unfold Pending at hpending ⊢
    simp only [Shared.logs, Fifo.eventsOf_self, hpending, List.append_nil]
  · exact ⟨.rfl, Fifo.eventsOf_other hu.symm _ _, rfl, fun _ _ h => ⟨h, rfl, fun _ h => h, id, id⟩,
      fun _ h => ⟨h, rfl⟩, fun _ h => h, fun _ => .rfl, fun _ _ => rfl⟩

/-- The head leaves the list, and `t` is to take the value of its successor. -/
def Ghost.unlink (g : Ghost) (t : ℕ) (head next : Addr) : Ghost :=
  { g.setStatus head (.unlinked t) with
    spine := g.spine.tail
    taker := update g.taker next (some t) }

theorem unlink_kept {head next : Ptr} (hG : Inv s g) (hl : Local t s g (.popSwing head next))
    (hhead : s.head = head.addr) (htail : s.tail ≠ head.addr) :
    Kept t s g ((s.setHead next.addr).logs t (.pop (s.data next.addr))) (.popTake head next) := by
  obtain ⟨hpending, hheld, hn, hlife⟩ := hl.here
  obtain ⟨rest, hrest⟩ := head_mem hG
  rw [hhead] at hrest
  have hpath := hG.path
  rw [hrest] at hpath
  have hpath' : LinkPath s.next (some next.addr) rest none := by
    have h := hpath.2
    rwa [hn] at h
  obtain ⟨rest', rfl⟩ : ∃ rest', rest = next.addr :: rest' := by
    cases rest with
    | nil => simp [LinkPath] at hpath'
    | cons b l => exact ⟨l, by rw [Option.some.inj hpath'.1]⟩
  have hnodup := hG.nodup
  rw [hrest, List.nodup_cons] at hnodup
  have hspine : (g.unlink t head.addr next.addr).spine = next.addr :: rest' := by
    simp [Ghost.unlink, hrest]
  have hlinked : g.status head.addr = .linked := (hG.linked _).mpr (by simp [hrest])
  have hnextMem : next.addr ∈ g.spine := by simp [hrest]
  have hnextLinked : g.status next.addr = .linked := (hG.linked _).mpr hnextMem
  have hne : next.addr ≠ head.addr := fun h => hnodup.1 (h ▸ List.mem_cons_self)
  have hstatus : ∀ b, b ≠ head.addr → (g.unlink t head.addr next.addr).status b = g.status b :=
    fun b hb => update_of_ne hb _ _
  have hself : (g.unlink t head.addr next.addr).status head.addr = .unlinked t :=
    update_self _ _ _
  have hsafe : ∀ u b, Safe u (g.unlink t head.addr next.addr) b ↔ Safe u g b := by
    intro u b
    apply safe_congr
    · rfl
    · exact update_free_iff head.addr (.unlinked t) (by simp [hlinked]) (by simp)
  have hwhere : ∀ b, b = s.head ∨ (g.status b).gone = true →
      ((g.unlink t head.addr next.addr).status b).gone = true := by
    intro b hb
    by_cases hbh : b = head.addr
    · subst hbh
      rw [hself]
      rfl
    · rw [hstatus b hbh]
      exact hb.resolve_left fun h => hbh (h.trans hhead)
  have htaker : ∀ u, g.taker next.addr ≠ some u := by
    intro u h
    rcases (hG.taker _ u h).2.2 with h | h
    · exact hne (h.trans hhead)
    · rw [hnextLinked] at h
      simp [Status.gone] at h
  obtain ⟨q, hq, hmap⟩ := hG.queue
  rw [hrest] at hmap
  obtain ⟨v, q', rfl⟩ : ∃ v q', q = v :: q' := by
    cases q with
    | nil => cases hmap
    | cons v q' => exact ⟨v, q', rfl⟩
  obtain ⟨hv, hmap'⟩ : s.data next.addr = some v ∧ rest'.map s.data = q'.map some := by
    simpa using hmap
  refine ⟨g.unlink t head.addr next.addr, ⟨?_, ?_, fun b => ?_, fun b => ?_, fun b => ?_, ?_,
    fun b hb => ?_, fun b hb => ?_, fun u hu b hb hold => ?_, fun u hu b n hb hn => ?_,
    fun u b hold => ?_, fun b u hb => ?_, ?_⟩,
    ⟨⟨v, ?_, ⟨hheld.pinned, ?_, ?_, hlife⟩, hself, ?_, hv⟩,
    fun a ha => ?_⟩, fun u hu => ?_⟩
  · rwa [hspine]
  · rw [hspine]
    exact hnodup.2
  · refine update_iff (P := (· = .linked)) (R := fun b =>
      b ∈ (g.unlink t head.addr next.addr).spine) hG.linked ?_ (fun b hb => ?_) b
    · rw [hspine]
      exact ⟨fun h => absurd h (by simp), fun h => absurd h hnodup.1⟩
    · rw [hspine, hrest, List.mem_cons (a := b) (b := head.addr)]
      exact ⟨.inr, fun h => h.resolve_left hb⟩
  · refine (update_iff (P := (· ≠ .free)) (fun b => (hG.live b).symm) ?_ (fun _ _ => .rfl) b).symm
    have hlive := (hG.live head.addr).mpr (by simp [hlinked])
    simpa [Shared.setHead, Shared.logs] using hlive
  · refine (update_iff (P := (· = .retired)) (fun b => (hG.retired b).symm) ?_
      (fun _ _ => .rfl) b).symm
    have hret := hG.retired head.addr
    rw [hlinked] at hret
    simpa [Shared.setHead, Shared.logs] using hret
  · have h := hG.tail
    rw [hrest, List.mem_cons] at h
    rw [hspine]
    exact h.resolve_left htail
  · by_cases hbh : b = head.addr
    · subst hbh
      show s.next head.addr ≠ none
      simp [hn]
    · exact hG.gone b (hstatus b hbh ▸ hb)
  · have hbh : b ≠ head.addr := by
      rintro rfl
      rw [hself] at hb
      simp [Status.isPriv] at hb
    exact hG.priv b (hstatus b hbh ▸ hb)
  · have hbh : b ≠ head.addr := by
      rintro rfl
      simp [hself] at hb
    exact hG.guards u hu b (hstatus b hbh ▸ hb) hold
  · rw [hsafe] at hb ⊢
    exact hG.closed u hu b n hb hn
  · rcases hG.old u b hold with h | h
    · exact .inl (hwhere b (.inr h))
    · have hbh : b ≠ head.addr := by
        rintro rfl
        simp [hlinked] at h
      exact .inr ((hstatus b hbh).trans h)
  · by_cases hbn : b = next.addr
    · subst hbn
      obtain rfl : t = u := by simpa [Ghost.unlink] using hb
      exact ⟨hheld.pinned, (hsafe t _).mpr (linked_safe hG hnextMem), .inl rfl⟩
    · have hb' : g.taker b = some u := by simpa [Ghost.unlink, hbn] using hb
      obtain ⟨hp, hs, hw⟩ := hG.taker b u hb'
      exact ⟨hp, (hsafe u b).mpr hs, .inr (hwhere b hw)⟩
  · refine ⟨q', ?_, ?_⟩
    · simpa [Shared.logs, Shared.setHead, hv] using Replay.pop hq
    · rwa [hspine]
  · unfold Pending at hpending ⊢
    simp only [Shared.logs, Shared.setHead, Fifo.eventsOf_self, hpending, List.append_nil, hv]
  · exact (hsafe t _).mpr (linked_safe hG hnextMem)
  · rw [hstatus _ hne, hnextLinked]
    rfl
  · simp [Ghost.unlink]
  · by_cases han : a = next.addr
    · subst han
      rfl
    · exact absurd (show g.taker a = some t by simpa [Ghost.unlink, han] using ha)
        (hl.no_taker rfl)
  · refine ⟨.rfl, Fifo.eventsOf_other hu.symm _ _, rfl, fun _ b hb => ⟨(hsafe u b).mpr hb, rfl,
      fun _ h => h, fun h => ?_, fun h => .inr (hwhere b h)⟩, fun b hb => ?_, fun b hb => ?_,
      fun b => ?_, fun _ _ => rfl⟩
    · by_cases hbh : b = head.addr
      · subst hbh
        rw [hself]
        rfl
      · rwa [hstatus b hbh]
    · have hbh : b ≠ head.addr := by
        rintro rfl
        simp [hlinked] at hb
      exact ⟨(hstatus b hbh).trans hb, rfl⟩
    · have hbh : b ≠ head.addr := by
        rintro rfl
        simp [hlinked] at hb
      exact (hstatus b hbh).trans hb
    · by_cases hbn : b = next.addr
      · subst hbn
        simp [Ghost.unlink, hu.symm, htaker u]
      · simp [Ghost.unlink, hbn]

/-- The value of a node is taken. -/
def Ghost.take (g : Ghost) (a : Addr) : Ghost :=
  { g with taker := update g.taker a none }

/-- The taker of a node takes its value. -/
theorem take_kept {head next : Ptr} (hG : Inv s g) (hl : Local t s g (.popTake head next)) :
    Kept t s g (s.take next.addr) (.popRetire head (s.data next.addr)) := by
  obtain ⟨v, hpending, hheld, hstatus, htaker, hdata⟩ := hl.here
  have hwhere := (hG.taker _ t htaker).2.2
  have hnotin : next.addr ∉ g.spine.tail := by
    intro hmem
    rcases hwhere with h | h
    · obtain ⟨rest, hrest⟩ := head_mem hG
      have hnodup := hG.nodup
      rw [hrest, List.nodup_cons] at hnodup
      rw [hrest, List.tail_cons] at hmem
      exact hnodup.1 (h ▸ hmem)
    · rw [(hG.linked _).mpr (List.mem_of_mem_tail hmem)] at h
      simp [Status.gone] at h
  have hother : ∀ b, b ≠ next.addr → (s.take next.addr).data b = s.data b :=
    fun b hb => update_of_ne hb _ _
  refine ⟨g.take next.addr, { hG with
      closed := fun u hu a n ha hn => ?_
      taker := fun b u hb => ?_
      queue := ?_ }, ⟨⟨?_, hstatus⟩, fun a ha => ?_⟩, fun u hu => ?_⟩
  · have h := hG.closed u hu a n ⟨ha.live, ha.young⟩ hn
    exact ⟨h.live, h.young⟩
  · have hbn : b ≠ next.addr := by
      rintro rfl
      simp [Ghost.take] at hb
    obtain ⟨hp, hs, hw⟩ := hG.taker b u (by simpa [Ghost.take, hbn] using hb)
    exact ⟨hp, ⟨hs.live, hs.young⟩, hw⟩
  · obtain ⟨q, hq, hmap⟩ := hG.queue
    refine ⟨q, hq, ?_⟩
    rw [← hmap]
    apply List.map_congr_left
    intro b hb
    exact hother b fun h => hnotin (h ▸ hb)
  · rwa [hdata]
  · have han : a ≠ next.addr := by
      rintro rfl
      simp [Ghost.take] at ha
    have h := hl.takes a (by simpa [Ghost.take, han] using ha)
    exact absurd (Option.some.inj h).symm han
  · refine ⟨.rfl, rfl, rfl, fun _ b hb => ⟨⟨hb.live, hb.young⟩, rfl, fun _ h => h, id, id⟩,
      fun b hb => ⟨hb, hother b ?_⟩, fun _ h => h, fun b => ?_, fun b hb => hother b ?_⟩
    · rintro rfl
      have hshared := hheld.shared
      rw [hb] at hshared
      simp [Status.isPriv] at hshared
    · by_cases hbn : b = next.addr
      · subst hbn
        simp [Ghost.take, htaker, hu.symm]
      · simp [Ghost.take, hbn]
    · rintro rfl
      rw [htaker] at hb
      exact hu (Option.some.inj hb).symm

/-- Everybody who is pinned guards the retired node. -/
theorem retire_kept {head : Ptr} {value : Option α} (hG : Inv s g)
    (hl : Local t s g (.popRetire head value)) :
    Kept t s g (s.retire head.addr) (.popped value) := by
  obtain ⟨hpending, hunlinked⟩ := hl.here
  have hstatus : ∀ b, b ≠ head.addr → (g.setStatus head.addr .retired).status b = g.status b :=
    fun b hb => update_of_ne hb _ _
  have hself : (g.setStatus head.addr .retired).status head.addr = .retired :=
    update_self _ _ _
  have hsafe : ∀ u b, Safe u (g.setStatus head.addr .retired) b ↔ Safe u g b := by
    intro u b
    apply safe_congr
    · rfl
    · exact update_free_iff head.addr .retired (by simp [hunlinked]) (by simp)
  have hgone : ∀ b, ((g.setStatus head.addr .retired).status b).gone = (g.status b).gone := by
    intro b
    by_cases hb : b = head.addr
    · subst hb
      rw [hself, hunlinked]
      rfl
    · rw [hstatus b hb]
  have hpriv : ∀ b, ((g.setStatus head.addr .retired).status b).isPriv = (g.status b).isPriv := by
    intro b
    by_cases hb : b = head.addr
    · subst hb
      rw [hself, hunlinked]
      rfl
    · rw [hstatus b hb]
  refine ⟨g.setStatus head.addr .retired, ⟨hG.path, hG.nodup, fun b => ?_, fun b => ?_, fun b => ?_,
    hG.tail, fun b hb => ?_, fun b hb => ?_, fun u hu b hb hold => ?_, fun u hu b n hb hn => ?_,
    fun u b hold => ?_, fun b u hb => ?_, hG.queue⟩, ⟨hpending, fun a ha => ?_⟩, fun u hu => ?_⟩
  · refine update_iff (P := (· = .linked)) hG.linked ?_ (fun _ _ => .rfl) b
    rw [← hG.linked, hunlinked]
    simp
  · refine (update_iff (P := (· ≠ .free)) (fun b => (hG.live b).symm) ?_ (fun _ _ => .rfl) b).symm
    have hlive := (hG.live head.addr).mpr (by simp [hunlinked])
    simpa [Shared.retire] using hlive
  · refine (update_iff (P := (· = .retired)) (R := fun b => (s.retire head.addr).retired b = true)
      (fun b => (hG.retired b).symm) ?_ (fun b hb => ?_) b).symm
    · simp [Shared.retire]
    · simp [Shared.retire, hb]
  · exact hG.gone b (hgone b ▸ hb)
  · exact hG.priv b (hpriv b ▸ hb)
  · by_cases hbh : b = head.addr
    · subst hbh
      simpa [Shared.retire] using hu
    · have h := hG.guards u hu b (hstatus b hbh ▸ hb) hold
      simpa [Shared.retire, hbh] using h
  · rw [hsafe] at hb ⊢
    exact hG.closed u hu b n hb hn
  · rw [hgone]
    rcases hG.old u b hold with h | h
    · exact .inl h
    · have hbh : b ≠ head.addr := by
        rintro rfl
        simp [hunlinked] at h
      exact .inr ((hstatus b hbh).trans h)
  · obtain ⟨hp, hs, hw⟩ := hG.taker b u hb
    exact ⟨hp, (hsafe u b).mpr hs, by rw [hgone]; exact hw⟩
  · exact absurd ha (hl.no_taker rfl)
  · refine ⟨.rfl, rfl, rfl, fun _ b hb => ⟨(hsafe u b).mpr hb, rfl, fun _ h => h, ?_, ?_⟩,
      fun b hb => ⟨?_, rfl⟩, fun b hb => ?_, fun _ => .rfl, fun _ _ => rfl⟩
    · rw [hpriv]
      exact id
    · rw [hgone]
      exact id
    · have hbh : b ≠ head.addr := by
        rintro rfl
        simp [hunlinked] at hb
      exact (hstatus b hbh).trans hb
    · have hbh : b ≠ head.addr := by
        rintro rfl
        rw [hunlinked] at hb
        exact hu (Status.unlinked.inj hb).symm
      exact (hstatus b hbh).trans hb

/-! ## Every run -/

theorem idle_kept (act : Act α) (hG : Inv s g) (hl : Local t s g .idle) :
    Post (fun r => Kept t s g r.1 r.2) (step t act s .idle) := by
  cases act with
  | push v a =>
    simp only [step]
    split
    · trivial
    · rename_i hlive
      exact alloc_kept hG hl (by simpa using hlive)
  | pop =>
    have htaker : ∀ a, g.taker a ≠ some t := fun a => hl.no_taker rfl
    exact ⟨g.pin t, pin_inv hG htaker,
      ⟨⟨hl.here, List.mem_cons_self⟩, fun a ha => absurd ha (htaker a)⟩, fun u hu => pin_rely hu⟩
  | free a =>
    simp only [step]
    split
    · rename_i hfree
      obtain ⟨hret, hguards⟩ := by simpa using hfree
      exact free_kept hG hl hret hguards
    · trivial
  | step => trivial

/-- A dereference of a held pointer goes through. -/
theorem deref_eq {p : Ptr} {r : Option (Shared α × Pc α)} (hG : Inv s g) (h : Held t s g p) :
    deref s p r = r := by
  simp [deref, held_valid hG h]

theorem step_kept {act : Act α} {pc pc' : Pc α} (hG : Inv s g) (hl : Local t s g pc)
    (hbehind : Behind s pc) (hs : step t act s pc = some (s', pc')) : Kept t s g s' pc' := by
  apply Post.of_pair hs
  cases pc with
  | idle => exact idle_kept act hG hl
  | pushPin node v =>
    have htaker : ∀ a, g.taker a ≠ some t := fun a => hl.no_taker rfl
    exact ⟨g.pin t, pin_inv hG htaker, ⟨⟨hl.here.1, hl.here.2, List.mem_cons_self⟩,
      fun a ha => absurd ha (htaker a)⟩, fun u hu => pin_rely hu⟩
  | pushLoad node v =>
    obtain ⟨hpending, hown, hpinned⟩ := hl.here
    exact same_kept hG ⟨⟨hpending, hown, linked_held hG hpinned hG.tail⟩, hl.takes⟩
  | pushNext node v tail =>
    obtain ⟨hpending, hown, hheld⟩ := hl.here
    simp only [step, deref_eq hG hheld]
    split
    · exact same_kept hG ⟨⟨hpending, hown, hheld⟩, hl.takes⟩
    · rename_i n hn
      exact same_kept hG ⟨⟨hpending, hown, hheld, hn⟩, hl.takes⟩
  | pushLink node v tail =>
    obtain ⟨hpending, hown, hheld⟩ := hl.here
    simp only [step, deref_eq hG hheld]
    split
    · rename_i hnone
      exact link_kept hG hl hnone
    · exact same_kept hG ⟨⟨hpending, hown, hheld.pinned⟩, hl.takes⟩
  | pushSwing node v tail =>
    obtain ⟨hpending, hheld, hn⟩ := hl.here
    refine swing_kept hG hn fun s' hs' => ?_
    rcases hs' with rfl | rfl
    · exact ⟨hpending, hl.takes⟩
    · exact ⟨hpending, hl.takes⟩
  | pushHelp node v tail n =>
    obtain ⟨hpending, hown, hheld, hn⟩ := hl.here
    refine swing_kept hG hn fun s' hs' => ?_
    rcases hs' with rfl | rfl
    · exact ⟨⟨hpending, hown, hheld.pinned⟩, hl.takes⟩
    · exact ⟨⟨hpending, hown, hheld.pinned⟩, hl.takes⟩
  | pushed v => exact return_kept hG hl rfl hl.here
  | popLoad =>
    obtain ⟨rest, hrest⟩ := head_mem hG
    have hheld : Held t s g (s.ptr s.head) := linked_held hG hl.here.2 (by simp [hrest])
    exact same_kept hG ⟨⟨hl.here.1, hheld, .inl rfl⟩, hl.takes⟩
  | popNext head =>
    obtain ⟨hpending, hheld, hwhere⟩ := hl.here
    simp only [step, deref_eq hG hheld]
    split
    · rename_i hnone
      exact empty_kept hG hl hnone
    · rename_i n hn
      exact same_kept hG ⟨⟨hpending, hheld, hn, rfl⟩, hl.takes⟩
  | popSwing head next =>
    simp only [step]
    split
    · rename_i hhead
      exact unlink_kept hG hl hhead (hbehind hhead)
    · exact same_kept hG ⟨⟨hl.here.1, hl.here.2.1.pinned⟩, hl.takes⟩
  | popTake head next =>
    obtain ⟨v, _, hheld, _⟩ := hl.here
    simp only [step, deref_eq hG hheld]
    exact take_kept hG hl
  | popRetire head value => exact retire_kept hG hl
  | popped value => exact return_kept hG hl rfl hl.here
  | fault => exact absurd hl.here id

/-- The ghost state of a new queue. -/
def Ghost.new : Ghost where
  spine := [0]
  status := fun a => if a = 0 then .linked else .free
  old := fun _ _ => false
  taker := fun _ => none

theorem init_inv : Inv (Shared.new : Shared α) Ghost.new := by
  have hgone : ∀ a, (Ghost.new.status a).gone = false := by
    intro a
    by_cases h : a = 0 <;> simp [Ghost.new, h, Status.gone]
  refine ⟨⟨rfl, rfl⟩, by simp [Ghost.new], fun a => ?_, fun a => ?_, fun a => ?_,
    by simp [Ghost.new, Shared.new], fun a ha => ?_, fun a _ => rfl, fun t ht => ?_,
    fun t ht => ?_, fun t a h => ?_, fun a t h => ?_, [], .nil, rfl⟩
  · by_cases h : a = 0 <;> simp [Ghost.new, h]
  · by_cases h : a = 0 <;> simp [Ghost.new, Shared.new, h]
  · by_cases h : a = 0 <;> simp [Ghost.new, Shared.new, h]
  · simp [hgone] at ha
  · simp [Shared.new] at ht
  · simp [Shared.new] at ht
  · simp [Ghost.new] at h
  · simp [Ghost.new] at h

theorem outline {c : Conf ℕ (Shared α) (Pc α)} (hc : (guardedSystem α).Reachable c) :
    ∃ g, Inv c.sh g ∧ ∀ t, Local t c.sh g (c.pc t) := by
  refine System.rely_guarantee (guardedSystem α) Inv Local Rely ?_ ?_ ?_ hc
  · refine ⟨Ghost.new, init_inv, fun t => ⟨rfl, fun a ha => ?_⟩⟩
    simp [Ghost.new] at ha
  · rintro t s g pc s' pc' hG hl ⟨⟨act, hs⟩, hbehind⟩
    exact step_kept hG hl hbehind hs
  · intro u s g s' g' pc hG _ hR hl
    exact local_stable hG hR hl

/-- At most one event is logged and not yet returned. -/
theorem pending_length (h : At t s g pc) : ∃ es, Pending t s es ∧ es.length ≤ 1 := by
  cases pc with
  | idle => exact ⟨[], h, Nat.zero_le _⟩
  | pushPin | pushLoad | pushNext | pushLink | pushHelp | popLoad | popNext | popSwing =>
    exact ⟨[], h.1, Nat.zero_le _⟩
  | pushSwing | popRetire => exact ⟨_, h.1, le_rfl⟩
  | pushed | popped => exact ⟨_, h, le_rfl⟩
  | popTake =>
    obtain ⟨v, hpending, _⟩ := h
    exact ⟨_, hpending, le_rfl⟩
  | fault => exact absurd h id

/-- **The baseline is a linearizable FIFO without dangling pointers**, in every run in
which the head is never moved past the tail. -/
theorem linearizable (α : Type*) (c : Conf ℕ (Shared α) (Pc α))
    (hc : (guardedSystem α).Reachable c) :
    (∀ t, c.pc t ≠ .fault) ∧ Linear c.sh.log c.sh.returned ∧
      (c.sh.log.filterMap fun e => e.2.popped?) <+: (c.sh.log.filterMap fun e => e.2.pushed?) := by
  obtain ⟨g, hG, hl⟩ := outline hc
  obtain ⟨q, hq, _⟩ := hG.queue
  refine ⟨fun t h => ?_, ⟨⟨q, hq⟩, fun t => pending_length (hl t).here⟩, q, ?_⟩
  · have hhere := (hl t).here
    rw [h] at hhere
    exact hhere
  · have hvalues := hq.values
    simpa [List.filterMap_map, comp_def] using hvalues.symm

/-- Two pushes and three pops.  The second push swings the tail for the first one and
returns before it; the pops return the values in the order in which they were linked, and
then nothing. -/
theorem linearizable_two_pushes : ∃ c, (guardedSystem ℕ).Reachable c ∧
    c.sh.returned = [(1, .push 11), (0, .push 10), (2, .pop (some 10)), (1, .pop (some 11)),
      (0, .pop none)] ∧ Linear c.sh.log c.sh.returned := by
  obtain ⟨c, hruns, hreturned⟩ : ∃ c, System.runs
      (System.guarded step fun _ s pc _ _ => Behind s pc)
      ((0, .push 10 1) :: List.replicate 4 (0, .step) ++
        (1, .push 11 2) :: List.replicate 9 (1, .step) ++ List.replicate 2 (0, .step) ++
        (2, .pop) :: List.replicate 6 (2, .step) ++ (1, .pop) :: List.replicate 6 (1, .step) ++
        (0, .pop) :: List.replicate 3 (0, .step)) (guardedSystem ℕ).start = some c ∧
      c.sh.returned = [(1, .push 11), (0, .push 10), (2, .pop (some 10)), (1, .pop (some 11)),
        (0, .pop none)] := ⟨_, rfl, rfl⟩
  have hc := System.runs_guarded hruns
  exact ⟨c, hc, hreturned, (linearizable ℕ c hc).2.1⟩

end MsQueue
