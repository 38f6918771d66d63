/-
# The freelist

`FreeList::take` detaches the whole cached chain with the busy token, keeps a
prefix and publishes the rest; `FreeList::recycle` pushes a reset block, or
frees it while another thread is taking.  In ghost terms the blocks of the
chain change owner from `pooled` to `held t` and back, so a block is never in
two lists.
-/
import Ubq.V8.Moves

namespace V8

open Function

variable {T : Type*} {cfg : Config} {t u : Tid} {s s' : Shared T} {g g' : Ghost T}
variable {ret : TakeRet T} {b : Addr} {n : ℕ} {r : Read T} {acc : List Addr}

/-! ## Returning from `take` and `acquire` -/

theorem resume_ok (h : Inv cfg s g) (hu : Unlocked t g) {ret : AcqRet T}
    (hk : Keeps t g (TakeRet.acquire ret acc 0).blocks) (ha : AcqOk cfg t s g ret acc 0) :
    StepOk cfg t s g (resume s ret acc) := by
  cases ret with
  | first src index block => exact ⟨g, Ok.refl h, hu.toLocal rfl rfl rfl hk ha⟩
  | root src index blocks => exact ha.elim
  | more src index block blocks =>
    obtain ⟨h1, h2, h3, h4, h5, h6, h7⟩ := ha
    obtain ⟨s', heq, hok, hl, ho, _, heap', rfl⟩ := addAssign_ok h h5 h6 h7
    have hres : resume s (.more src index block blocks) acc
        = ({ s with heap := heap' }, .wCas src index block (acc ++ blocks)) := by
      simp only [resume, heq]
    rw [hres]
    refine ⟨g, hok, hu.toLocal rfl rfl rfl hk ⟨h1, h2, h3, ?_, ho _ h5, hl⟩⟩
    rwa [List.length_append, Nat.add_comm acc.length]

theorem acquire_ok (h : Inv cfg s g) (hu : Unlocked t g) {ret : AcqRet T}
    (hk : Keeps t g (TakeRet.acquire ret [] n).blocks) (ha : AcqOk cfg t s g ret [] n) :
    StepOk cfg t s g (acquire s ret n) := by
  unfold acquire
  by_cases hn : n = 0
  · rw [if_pos hn]
    subst hn
    exact resume_ok h hu hk ha
  · rw [if_neg hn]
    exact ⟨g, Ok.refl h, hu.toLocal rfl rfl rfl hk ⟨by omega, ha⟩⟩

/-- What a caller of `take` already holds is its own. -/
theorem TakeOk.owned (h : TakeOk cfg t s g ret) : Owned t s g ret.blocks := by
  cases ret with
  | acquire ret acc n =>
    cases ret with
    | first src index block => exact h.2.2.2.1
    | root src index blocks => exact h.2.elim
    | more src index block blocks => exact h.2.2.2.2.2.1
  | flush => exact ⟨List.nodup_nil, fun a ha => by simp [TakeRet.blocks] at ha⟩

/-- The return point depends on its own blocks and the producer's head. -/
theorem TakeOk.frame (hT : TakeOk cfg t s g ret)
    (hidx : s'.producerIndex = s.producerIndex) (hlinked : s'.linked = s.linked)
    (hpown : g'.pown = g.pown) (hpk : g'.pk = g.pk)
    (hb : ∀ a ∈ ret.blocks, g'.owner a = g.owner a ∧ s'.heap a = s.heap a) :
    TakeOk cfg t s' g' ret := by
  have hown : ∀ l, (∀ a ∈ l, a ∈ ret.blocks) → Owned t s g l → Owned t s' g' l :=
    fun l hl ho => ho.of_eq (fun a ha => (hb a (hl a ha)).1) fun a ha => (hb a (hl a ha)).2
  have hlink : ∀ l, (∀ a ∈ l, a ∈ ret.blocks) → Linked s l → Linked s' l :=
    fun l hl hp => hp.of_eq fun a ha => (hb a (hl a ha)).2
  have hsnap : ∀ index block, PSnap s g index block → PSnap s' g' index block := by
    intro index block h
    unfold PSnap
    rwa [hidx, hlinked, hpown, hpk]
  cases ret with
  | flush => trivial
  | acquire ret acc n =>
    refine ⟨hT.1, ?_⟩
    cases ret with
    | first src index block =>
      obtain ⟨h1, h2, h3, h4⟩ := hT.2
      exact ⟨h1, hsnap _ _ h2, hown _ (fun _ h => h) h3, hlink _ (fun _ h => h) h4⟩
    | root src index blocks => exact hT.2
    | more src index block blocks =>
      obtain ⟨h1, h2, h3, h4, h5, h6, h7⟩ := hT.2
      exact ⟨h1, hsnap _ _ h2, h3, h4, hown _ (fun _ h => h) h5,
        hlink _ (fun _ h => List.mem_append_left _ h) h6,
        hlink _ (fun _ h => List.mem_append_right _ h) h7⟩

/-- The blocks of a return point, once `cached` has been added. -/
theorem mem_blocks_add (ret : AcqRet T) (acc cached : List Addr) (n m : ℕ) (a : Addr) :
    a ∈ cached ++ (TakeRet.acquire ret acc n).blocks ↔
      a ∈ (TakeRet.acquire ret (cached ++ acc) m).blocks := by
  cases ret <;> simp [TakeRet.blocks]

/-- Adding `m` of the `n` wanted blocks. -/
theorem AcqOk.add {ret : AcqRet T} {heap' : Addr → Block T}
    (ha : AcqOk cfg t s g ret acc n) {cached : List Addr} (hlen : cached.length ≤ n)
    (ho : Owned t s g (cached ++ (TakeRet.acquire ret acc n).blocks))
    (hown : ∀ l, Owned t s g l → Owned t { s with heap := heap' } g l)
    (hlink : ∀ l, (∀ a ∈ l, a ∉ cached) → Linked s l → Linked { s with heap := heap' } l)
    (hl : Linked { s with heap := heap' } (cached ++ acc)) :
    AcqOk cfg t { s with heap := heap' } g ret (cached ++ acc) (n - cached.length) := by
  cases ret with
  | first src index block =>
    obtain ⟨h1, h2, _, _⟩ := ha
    exact ⟨h1, h2, hown _ ho, hl⟩
  | root src index blocks => exact ha
  | more src index block blocks =>
    obtain ⟨h1, h2, h3, h4, _, _, h7⟩ := ha
    have hnd : (cached ++ (acc ++ blocks)).Nodup := ho.1
    refine ⟨h1, h2, h3, ?_, ?_, hl, hlink _ (fun a hab hac => ?_) h7⟩
    · have hsum : blocks.length + (cached ++ acc).length + (n - cached.length)
          = blocks.length + acc.length + n := by
        rw [List.length_append]
        omega
      rwa [hsum]
    · rw [List.append_assoc]
      exact hown _ ho
    · rw [List.nodup_append'] at hnd
      exact hnd.2.2 hac (List.mem_append_right _ hab)

/-- **`take` returns** a list of at most the wanted length. -/
theorem took_ok (h : Inv cfg s g) (hu : Unlocked t g) {cached : List Addr}
    (hT : TakeOk cfg t s g ret) (hlim : ret.limit.all (cached.length ≤ ·))
    (ho : Owned t s g (cached ++ ret.blocks)) (hk : Keeps t g (cached ++ ret.blocks))
    (hl : Linked s cached) : StepOk cfg t s g (took s ret cached) := by
  cases ret with
  | flush =>
    refine ⟨g, Ok.refl h, hu.toLocal rfl rfl rfl (fun a ha => ?_) ?_⟩
    · show a ∈ cached
      simpa [TakeRet.blocks] using hk a ha
    · exact ho.sublist (List.sublist_append_left _ _)
  | acquire ret acc n =>
    have hlen : cached.length ≤ n := by simpa [TakeRet.limit] using hlim
    have hacc : Linked s acc ∧ Owned t s g (cached ++ acc) := by
      cases ret with
      | first src index block => exact ⟨hT.2.2.2.2, ho⟩
      | root src index blocks => exact hT.2.elim
      | more src index block blocks =>
        refine ⟨hT.2.2.2.2.2.2.1, ho.sublist ?_⟩
        exact (List.Sublist.refl cached).append (List.sublist_append_left _ _)
    obtain ⟨s', heq, hok, hl', hown, hlink, heap', rfl⟩ := addAssign_ok h hacc.2 hl hacc.1
    have ha := hT.2.add hlen ho hown hlink hl'
    have hkeeps : ∀ m, Keeps t g (TakeRet.acquire ret (cached ++ acc) m).blocks :=
      fun m b hb => (mem_blocks_add ret acc cached n m b).mp (hk b hb)
    have htook : took s (.acquire ret acc n) cached
        = if n - cached.length = 0 then resume { s with heap := heap' } ret (cached ++ acc)
          else ({ s with heap := heap' }, .aAlloc ret (cached ++ acc) (n - cached.length)) := by
      simp only [took, heq]
    rw [htook]
    by_cases hn : n - cached.length = 0
    · rw [if_pos hn]
      rw [hn] at ha
      exact StepOk.after hok (resume_ok hok.inv hu (hkeeps _) ha)
    · rw [if_neg hn]
      exact ⟨g, hok, hu.toLocal rfl rfl rfl (hkeeps _) ⟨by omega, ha⟩⟩

theorem took_nil_ok (h : Inv cfg s g) (hu : Unlocked t g)
    (hT : TakeOk cfg t s g ret) (hk : Keeps t g ret.blocks) :
    StepOk cfg t s g (took s ret []) := by
  apply took_ok h hu hT
  · cases ret with
    | acquire ret acc n => simp [TakeRet.limit]
    | flush => rfl
  · exact hT.owned
  · exact hk
  · rfl

/-! ## `FreeList::take` -/

/-- What the free list must meet when blocks move between it and a thread. -/
theorem inv_cache (h : Inv cfg s g) {owner : Addr → Own Tid} {heap : Addr → Block T}
    {head : FreeHead} {fown : Option Tid} {cache : List Addr}
    (hchain : ∀ a k, owner a = .chain k ↔ g.owner a = .chain k)
    (hfree : ∀ a, owner a = .free ↔ g.owner a = .free)
    (hheap : ∀ a k, g.owner a = .chain k → heap a = s.heap a)
    (hpath : ∀ p, head = .ptr p → LinkPath (fun a => (heap a).next) p cache none)
    (hnd : cache.Nodup) (hmem : ∀ a, owner a = .pooled ↔ a ∈ cache)
    (hclean : ∀ a ∈ cache, (heap a).Clean) (hbusy : head = .busy ↔ fown ≠ none)
    (hempty : fown ≠ none → cache = []) :
    Inv cfg { s with heap := heap, freelist := head }
      { g with owner := owner, fown := fown, cache := cache } :=
  { h with
    chain := h.chain.congr fun a k ha => by
      have hg := (hchain a k).mp ha
      exact ⟨hg, congrArg Block.next (hheap a k hg)⟩
    live := fun k a ha => (h.live k a ha).imp (hchain a k).mpr id
    freed := fun a ha => (hfree a).mpr (h.freed a ha)
    used := fun a ha hc => h.used a ha ((hfree a).mp hc)
    content := fun a k ha => by
      have hg := (hchain a k).mp ha
      show Content cfg g.L g.vstat k (heap a)
      rw [hheap a k hg]
      exact h.content a k hg
    unretired := fun a k ha => h.unretired a k ((hchain a k).mp ha)
    cache_path := hpath
    cache_nodup := hnd
    cache_mem := hmem
    cache_clean := hclean
    busy_iff := hbusy
    busy_cache := hempty
    hist := { h.hist with } }

/-- **Detaching the cached chain**: its blocks become private to `t`. -/
theorem detach_ok (h : Inv cfg s g) (hu : Unlocked t g) {head : Addr}
    (hT : TakeOk cfg t s g ret) (hk : Keeps t g ret.blocks)
    (hf : s.freelist = .ptr (some head)) :
    StepOk cfg t s g ({ s with freelist := .busy }, .tWalk ret [] (some head)) := by
  have hpool : ∀ a ∈ g.cache, g.owner a = .pooled := fun a => (h.cache_mem a).mpr
  have hheld : ∀ a u, g.owner a = .held u → move g.owner g.cache (.held t) a = .held u := by
    intro a u ha
    rwa [move_of_notMem fun hc => by simp [hpool a hc] at ha]
  have hpath := h.cache_path _ hf
  have hne : g.cache ≠ [] := by
    intro hc
    rw [hc] at hpath
    simp [LinkPath] at hpath
  have hfown : g.fown = none := by
    by_contra hc
    have := h.busy_iff.mpr hc
    simp [hf] at this
  refine ⟨{ g with owner := move g.owner g.cache (.held t), fown := some t, cache := [] },
    ⟨?_, fun u hu' => ?_⟩, ?_⟩
  · refine inv_cache h (fun a k => move_iff hpool (by simp) (by simp) a)
      (move_iff hpool (by simp) (by simp)) (fun _ _ _ => rfl) (by simp) List.nodup_nil
      (fun a => ?_) (by simp) (by simp) fun _ => rfl
    by_cases hac : a ∈ g.cache
    · simp [move_of_mem hac]
    · simp [move_of_notMem hac, h.cache_mem a, hac]
  · refine { Rely.refl u s g with
      held := fun a ha => ⟨hheld a u ha, rfl⟩
      keeps := fun a ha => ?_
      fown_iff := iff_of_false (not_mine rfl hu') (by simp [hfown]) }
    exact (move_iff hpool (held_ne hu') (by simp) a).mp ha
  · refine ⟨?_, ?_, ?_, fun _ => hu.idle, fun _ => hu.covers,
      fun hc => absurd hc (by simp [Pc.holdsF]), fun k v hv => absurd hv (hu.counts k v),
      hT.frame rfl rfl rfl rfl fun a ha =>
        ⟨(hheld a t (hT.owned.2 a ha).1).trans (hT.owned.2 a ha).1.symm, rfl⟩,
      g.cache, ?_, by simpa using hne, ?_, ?_, ?_, ?_⟩
    · simpa [Pc.holdsP] using hu.prod
    · simpa [Pc.holdsC] using hu.cons
    · simp [Pc.holdsF]
    · exact path_head hpath
    · rw [List.nil_append]
      have hold := hT.owned
      refine ⟨?_, fun a ha => ?_⟩
      · rw [List.nodup_append']
        refine ⟨h.cache_nodup, hold.1, fun a ha hb => ?_⟩
        have h1 := (h.cache_mem a).mpr ha
        simp [(hold.2 a hb).1] at h1
      · rcases List.mem_append.mp ha with ha | ha
        · exact ⟨move_of_mem ha, h.cache_clean a ha⟩
        · exact ⟨hheld a t (hold.2 a ha).1, (hold.2 a ha).2⟩
    · intro a ha
      rw [List.nil_append]
      by_cases hac : a ∈ g.cache
      · exact List.mem_append_left _ hac
      · exact List.mem_append_right _ (hk a ((move_of_notMem hac).symm.trans ha))
    · rw [List.nil_append]
      show LinkPath s.next g.cache.head? g.cache none
      rwa [← path_head hpath]
    · cases ret with
      | acquire ret acc n => simp [TakeRet.limit]
      | flush => rfl

/-- The walk takes one more block. -/
theorem walk_ok (h : Inv cfg s g) {taken : List Addr} {a : Addr}
    (hl : Local cfg t s g (.tWalk ret taken (some a))) (hlim : ret.limit.all (taken.length < ·)) :
    StepOk cfg t s g (s, .tWalk ret (taken ++ [a]) (s.heap a).next) := by
  obtain ⟨hT, rem, hrest, _, ho, hk, hlk, _⟩ := hl.here
  obtain ⟨rem', rfl⟩ : ∃ rem', rem = a :: rem' := by
    cases rem with
    | nil => cases hrest
    | cons b rem' =>
      obtain rfl : a = b := by simpa using hrest
      exact ⟨rem', rfl⟩
  have heq : taken ++ [a] ++ rem' = taken ++ a :: rem' := by simp
  obtain ⟨m, _, hm⟩ := path_append.mp (show LinkPath s.next _ (taken ++ a :: rem') none from hlk)
  refine ⟨g, Ok.refl h, { hl with
    keeps := fun hc => Bool.noConfusion hc
    here := ⟨hT, rem', path_head hm.2, by simp, ?_, ?_, ?_, ?_⟩ }⟩
  · rwa [heq]
  · rwa [heq]
  · rwa [heq]
  · cases ret with
    | acquire ret acc n =>
      have : taken.length < n := by simpa [TakeRet.limit] using hlim
      simp [TakeRet.limit]
      omega
    | flush => rfl

/-- **End of `take`**: the taken prefix is cut off and the rest is published. -/
theorem severed_ok (h : Inv cfg s g) {taken : List Addr} {rest : Option Addr}
    (hl : Local cfg t s g (.tWalk ret taken rest)) (hne : taken ≠ []) :
    StepOk cfg t s g (step.severed s ret taken rest) := by
  obtain ⟨hT, rem, hrest, _, ho, hk, hlk, hlim⟩ := hl.here
  have hfown : g.fown = some t := hl.holdsF.mpr rfl
  have hcache : g.cache = [] := h.busy_cache (by rw [hfown]; simp)
  rcases List.eq_nil_or_concat taken with rfl | ⟨init, z, hcat⟩
  · exact absurd rfl hne
  rw [List.concat_eq_append] at hcat
  subst hcat
  have hlast : (init ++ [z]).getLast? = some z := by simp
  obtain ⟨hnd1, hndb, hdisjb⟩ := List.nodup_append'.mp ho.1
  obtain ⟨hnd2, hndr, hdisjr⟩ := List.nodup_append'.mp hnd1
  have hzrem : ∀ a ∈ rem, a ≠ z := by
    rintro a ha rfl
    exact hdisjr (by simp) ha
  have hheld : ∀ a, a ∈ init ++ [z] ++ rem → g.owner a = .held t := fun a ha =>
    (ho.2 a (List.mem_append_left _ ha)).1
  have hrem : ∀ a ∈ rem, g.owner a = .held t := fun a ha => hheld a (List.mem_append_right _ ha)
  have hnot : ∀ a, g.owner a ≠ .held t → a ∉ rem ∧ a ≠ z := by
    intro a ha
    refine ⟨fun hc => ha (hrem a hc), ?_⟩
    rintro rfl
    exact ha (hheld a (by simp))
  have hheap : ∀ a, a ≠ z → (s.modBlock z (·.setNext none)).heap a = s.heap a :=
    fun a ha => update_of_ne ha _ _
  have hmove : ∀ a u, move g.owner rem .pooled a = .held u → g.owner a = .held u := by
    intro a u ha
    have har : a ∉ rem := fun hc => absurd ((move_of_mem hc).symm.trans ha) (by simp)
    exact (move_of_notMem har).symm.trans ha
  -- the two halves of the detached chain
  have hcut := path_sever hnd1 hlast hlk
  rw [← modBlock_next, ← hrest] at hcut
  obtain ⟨hfront, hback⟩ := hcut
  have hok : Ok cfg t s g { s.modBlock z (·.setNext none) with freelist := .ptr rest }
      { g with owner := move g.owner rem .pooled, fown := none, cache := rem } := by
    refine ⟨inv_cache h (fun a k => move_iff hrem (by simp) (by simp) a)
      (move_iff hrem (by simp) (by simp)) (fun a k ha => ?_) (fun p hp => ?_) hndr (fun a => ?_)
      (fun a ha => ?_) (by simp) (fun hc => absurd rfl hc), fun u hu => ?_⟩
    · exact hheap a (hnot a (by rw [ha]; simp)).2
    · have hpr : rest = p := by simpa using hp
      rwa [← hpr]
    · rw [move_to_iff, h.cache_mem a, hcache]
      simp
    · rw [hheap a (hzrem a ha)]
      exact (ho.2 a (by simp [show a ∈ rem from ha])).2
    · refine { Rely.refl u s g with
        held := fun a ha => ?_
        keeps := fun a ha => ?_
        fown_iff := iff_of_false (by simp) (not_mine hfown hu) }
      · have hau := hnot a (by rw [ha]; simpa using hu)
        exact ⟨(move_of_notMem hau.1).trans ha, hheap a hau.2⟩
      · exact hmove a u ha
  have hsev : step.severed s ret (init ++ [z]) rest
      = took { s.modBlock z (·.setNext none) with freelist := .ptr rest } ret (init ++ [z]) := by
    simp only [step.severed, hlast]
  rw [hsev]
  have hunlock : Unlocked t
      { g with owner := move g.owner rem .pooled, fown := none, cache := rem } := by
    refine ⟨⟨fun hc => ?_, fun hc => ?_, by simp, hl.pending rfl,
      fun k v hv => absurd (hl.counts k v hv) (by simp [Pc.counts])⟩, hl.covers rfl⟩
    · exact absurd (hl.holdsP.mp hc) (by simp [Pc.holdsP])
    · exact absurd (hl.holdsC.mp hc) (by simp [Pc.holdsC])
  have hsep : ∀ a ∈ ret.blocks, a ∉ rem ∧ a ≠ z := by
    intro a ha
    refine ⟨fun hc => hdisjb (List.mem_append_right _ hc) ha, ?_⟩
    rintro rfl
    exact hdisjb (by simp) ha
  refine StepOk.after hok (took_ok hok.inv hunlock ?_ hlim ?_ (fun a ha => ?_) hfront)
  · exact hT.frame rfl rfl rfl rfl fun a ha =>
      ⟨move_of_notMem (hsep a ha).1, hheap a (hsep a ha).2⟩
  · refine ⟨?_, fun a ha => ?_⟩
    · rw [List.nodup_append']
      exact ⟨hnd2, hndb, fun a ha hb => hdisjb (List.mem_append_left _ ha) hb⟩
    · have har : a ∉ rem := by
        rcases List.mem_append.mp ha with ha | ha
        · exact fun hc => hdisjr ha hc
        · exact (hsep a ha).1
      have hmem : a ∈ init ++ [z] ++ rem ++ ret.blocks := by
        rcases List.mem_append.mp ha with ha | ha
        · exact List.mem_append_left _ (List.mem_append_left _ ha)
        · exact List.mem_append_right _ ha
      exact ⟨(move_of_notMem har).trans (ho.2 a hmem).1, modBlock_setNext_clean (ho.2 a hmem).2⟩
  · have har : a ∉ rem := fun hc => absurd ((move_of_mem hc).symm.trans ha) (by simp)
    have hmem := hk a (hmove a t ha)
    simp only [List.mem_append] at hmem ⊢
    tauto

/-! ## `FreeList::acquire` and `FreeList::flush` -/

/-- A missing block comes from the allocator. -/
theorem alloc_ok (h : Inv cfg s g) (hu : Unlocked t g) {ret : AcqRet T}
    {a : Addr} (hn : 0 < n) (hk : Keeps t g (TakeRet.acquire ret acc n).blocks)
    (ha : AcqOk cfg t s g ret acc n) (hfree : s.allocated a = false) :
    StepOk cfg t s g
      (if n - 1 = 0 then resume ((s.alloc a).modBlock a (·.setNext acc.head?)) ret (a :: acc)
        else ((s.alloc a).modBlock a (·.setNext acc.head?),
          .tLoad (.acquire ret (a :: acc) (n - 1)))) := by
  have hok := ok_alloc (t := t) h hfree
  have hold : TakeOk cfg t s g (.acquire ret acc n) := ⟨hn, ha⟩
  have hT : TakeOk cfg t (s.alloc a) { g with owner := update g.owner a (.held t) }
      (.acquire ret acc n) := hold.frame rfl rfl rfl rfl fun b hb => by
    obtain ⟨hown, hheap⟩ := alloc_held (t := t) h hfree (hold.owned.2 b hb).1
    exact ⟨hown.trans (hold.owned.2 b hb).1.symm, hheap⟩
  have hacq := hT.2
  have hnew : ∀ b ∈ (TakeRet.acquire ret acc n).blocks, b ≠ a := by
    rintro b hb rfl
    have h1 := (hold.owned.2 b hb).1
    simp [h.freed b hfree] at h1
  have howned : Owned t (s.alloc a) { g with owner := update g.owner a (.held t) }
      ([a] ++ (TakeRet.acquire ret acc n).blocks) := by
    refine ⟨List.nodup_cons.mpr ⟨fun hc => hnew a hc rfl, hT.owned.1⟩, fun b hb => ?_⟩
    rcases List.mem_cons.mp hb with rfl | hb
    · refine ⟨update_self _ _ _, ?_⟩
      show (update s.heap b Block.new b).Clean
      rw [update_self]
      exact ⟨rfl, fun v => rfl⟩
    · exact hT.owned.2 b hb
  have hacc : Linked (s.alloc a) acc ∧
      Owned t (s.alloc a) { g with owner := update g.owner a (.held t) } ([a] ++ acc) := by
    cases ret with
    | first src index block => exact ⟨hacq.2.2.2, howned⟩
    | root src index blocks => exact hacq.elim
    | more src index block blocks =>
      refine ⟨hacq.2.2.2.2.2.1, howned.sublist ?_⟩
      exact (List.Sublist.refl [a]).append (List.sublist_append_left _ _)
  have hsingle : Linked (s.alloc a) [a] := by
    refine ⟨rfl, ?_⟩
    show (update s.heap a Block.new a).next = none
    rw [update_self]
    rfl
  obtain ⟨s', heq, hok', hl', hown, hlink, heap', rfl⟩ :=
    addAssign_ok hok.inv hacc.2 hsingle hacc.1
  have hs : (s.alloc a).modBlock a (·.setNext acc.head?) = { s.alloc a with heap := heap' } :=
    congrArg Prod.fst heq
  have hnext := hacq.add (show [a].length ≤ n from hn) howned hown hlink hl'
  have hu' : Unlocked t { g with owner := update g.owner a (.held t) } :=
    ⟨{ hu.toReader with }, hu.covers⟩
  have hkeeps : ∀ m, Keeps t { g with owner := update g.owner a (.held t) }
      (TakeRet.acquire ret (a :: acc) m).blocks := by
    intro m b hb
    refine (mem_blocks_add ret acc [a] n m b).mp ?_
    by_cases hba : b = a
    · simp [hba]
    · exact List.mem_cons_of_mem _ (hk b ((update_of_ne hba _ _).symm.trans hb))
  rw [hs]
  by_cases hn1 : n - 1 = 0
  · rw [if_pos hn1]
    have hz : n - [a].length = 0 := hn1
    rw [hz] at hnext
    exact StepOk.after (hok.trans hok') (resume_ok hok'.inv hu' (hkeeps _) hnext)
  · rw [if_neg hn1]
    exact ⟨_, hok.trans hok', hu'.toLocal rfl rfl rfl (hkeeps _) ⟨by omega, hnext⟩⟩

/-- `flush` frees the next block of the detached list. -/
theorem flush_ok (h : Inv cfg s g) (hu : Unlocked t g) {rest : List Addr}
    (hk : Keeps t g (b :: rest)) (ho : Owned t s g (b :: rest)) :
    StepOk cfg t s g (s.dealloc b, .fDrop rest n) := by
  refine ⟨_, ok_dealloc h (ho.2 b (by simp)).1,
    Unlocked.toLocal ⟨{ hu.toReader with }, hu.covers⟩ rfl rfl rfl ?_ ho.dealloc⟩
  exact hk.lose (by simp) rfl fun a ha hab => (List.mem_cons.mp ha).resolve_left hab

/-! ## `FreeList::recycle` -/

/-- Once the recycled block is given away nothing private is left. -/
theorem Keeps.gone (h : Keeps t g [b]) {x : Own Tid} (hx : x ≠ .held t)
    (hg : g'.owner = update g.owner b x) : Keeps t g' [] :=
  h.lose hx hg fun _ ha hab => absurd (List.mem_singleton.mp ha) hab

theorem reset_ok (h : Inv cfg s g) (hu : Reader t g) {next : Option Addr}
    (hk : Keeps t g [b]) (hr : Recycling cfg t s g r next b) :
    StepOk cfg t s g (s.modBlock b Block.reset, .cLoad r next b) := by
  refine ⟨g, ok_modBlock h hr.1 _,
    hu.toLocal rfl rfl rfl (fun hc => Bool.noConfusion hc) hk ⟨hr, ?_⟩⟩
  show (update s.heap b (s.heap b).reset b).Clean
  rw [update_self]
  exact ⟨rfl, fun v => rfl⟩

theorem link_ok (h : Inv cfg s g) (hu : Reader t g) {next p : Option Addr}
    (hk : Keeps t g [b]) (hr : Recycling cfg t s g r next b) (hc : (s.heap b).Clean) :
    StepOk cfg t s g (s.modBlock b (·.setNext p), .cPush r next b p) := by
  refine ⟨g, ok_modBlock h hr.1 (·.setNext p),
    hu.toLocal rfl rfl rfl (fun hc => Bool.noConfusion hc) hk ⟨hr, modBlock_setNext_clean hc, ?_⟩⟩
  show (update s.heap b ((s.heap b).setNext p) b).next = p
  rw [update_self]
  rfl

/-- **The reset block is pushed** on the cached chain. -/
theorem push_ok (h : Inv cfg s g) (hu : Reader t g) {next head : Option Addr}
    (hk : Keeps t g [b]) (hr : Recycling cfg t s g r next b) (hc : (s.heap b).Clean)
    (hnext : (s.heap b).next = head) (hf : s.freelist = .ptr head) :
    StepOk cfg t s g ({ s with freelist := .ptr (some b) }, .rSeg (r.advance cfg next)) := by
  have hb : b ∉ g.cache := fun hc => by
    have h1 := (h.cache_mem b).mpr hc
    simp [hr.1] at h1
  have hfown : g.fown = none := by
    by_contra hne
    have h1 := h.busy_iff.mpr hne
    simp [hf] at h1
  refine ⟨{ g with owner := update g.owner b .pooled, cache := b :: g.cache },
    ⟨?_, fun u hu' => ?_⟩, Reader.toLocal { hu with } rfl rfl rfl
      (fun hc => Bool.noConfusion hc) (hk.gone (by simp) rfl) hr.2⟩
  · refine inv_cache h (fun a k => update_owner_iff hr.1 (by simp) a)
      (update_owner_iff hr.1 (by simp)) (fun _ _ _ => rfl) (fun p hp => ?_)
      (List.nodup_cons.mpr ⟨hb, h.cache_nodup⟩) (fun a => ?_) (fun a ha => ?_) (by simp [hfown])
      fun hc => absurd hfown hc
    · have hp' : some b = p := by simpa using hp
      refine ⟨hp'.symm, ?_⟩
      show LinkPath s.next (s.heap b).next g.cache none
      rw [hnext]
      exact h.cache_path head hf
    · show update g.owner b .pooled a = .pooled ↔ a ∈ b :: g.cache
      by_cases hab : a = b
      · subst hab
        simp
      · rw [update_of_ne hab, h.cache_mem a]
        simp [hab]
    · rcases List.mem_cons.mp ha with rfl | ha
      · exact hc
      · exact h.cache_clean a ha
  · refine { Rely.refl u s g with held := fun a ha => ⟨?_, rfl⟩, keeps := fun a ha => ?_ }
    · exact (update_owner_iff hr.1 (by simp [hu'.symm]) a).mpr ha
    · exact (owner_of_update (by simp) ha).2

theorem free_ok (h : Inv cfg s g) (hu : Reader t g) {next : Option Addr}
    (hk : Keeps t g [b]) (hr : Recycling cfg t s g r next b) :
    StepOk cfg t s g (s.dealloc b, .rSeg (r.advance cfg next)) :=
  ⟨_, ok_dealloc h hr.1, Reader.toLocal { hu with } rfl rfl rfl
    (fun hc => Bool.noConfusion hc) (hk.gone (by simp) rfl) hr.2⟩

end V8
