/-
# What one step does to the channel

Each step of the code is one of the moves below: taking or releasing the registry
lock, leasing, appending, creating and dropping, pushing and popping, returning.
A move says what becomes of the ghost state, keeps the three parts of the
invariant and leaves the other threads their knowledge.
-/
import Ubq.Lubq.Inv

namespace Lubq

open Function

variable {T : Type*} {cfg : Config} {t u : Tid} {s s' : Shared T} {g g' : Ghost}
variable {a : Addr} {k : ℕ} {l : Lease} {f : Shard T → Shard T}

/-! ## Steps -/

/-- No sender is left and every shard is empty. -/
structure Closed (s : Shared T) : Prop where
  senders : s.senders = 0
  empty : ∀ a ∈ s.owned, s.queue a = []

/-- The vector that a call was given. -/
def Op.values : Op T → List T
  | .tryRecvBatchInto _ values _ => values
  | _ => []

/-- The receiver that a receiving call is made on. -/
def Op.receiver : Op T → Option ℕ
  | .tryRecv r | .tryRecvBatchInto r _ _ => some r
  | _ => none

/-- What an error of a receiving call says about the step from `s` to `s'` that
returns it. -/
def Justified (s s' : Shared T) (op : Op T) : Res T → Prop
  | .error .empty vec => s.senders ≠ 0 ∧ vec = op.values ∧
      ∃ r, op.receiver = some r ∧ s'.got r = s'.popped r
  | .error .disconnected vec => Closed s' ∧ vec = op.values
  | _ => True

/-- A step of `t` records nothing, or a call of `t` with a justified result. -/
def Answers (t : Tid) (s s' : Shared T) : Prop :=
  s'.trace = s.trace ∨ ∃ op res, s'.trace = s.trace ++ [(t, op, res)] ∧ Justified s s' op res

/-- Thread `t` has kept the invariant, and the others their knowledge. -/
structure Ok (cfg : Config) (t : Tid) (s : Shared T) (g : Ghost) (s' : Shared T) (g' : Ghost) :
    Prop where
  inv : Inv cfg s' g'
  rely : ∀ u, u ≠ t → Rely u s g s' g'

/-- A step keeps the invariant and ends in an assertion. -/
structure StepOk (cfg : Config) (t : Tid) (s : Shared T) (g : Ghost) (r : Shared T × Pc T) :
    Prop where
  ok : ∃ g', Ok cfg t s g r.1 g' ∧ Local cfg t r.1 g' r.2
  answers : Answers t s r.1

theorem Rely.refl : Rely u s g s g where
  owned := List.prefix_rfl
  nt := Nat.le_refl _
  lock := Iff.rfl
  mine := fun _ => ⟨rfl, rfl, rfl, fun _ _ h => h⟩
  lease := fun _ => Iff.rfl
  quiet := fun _ _ h _ => h
  lent := fun _ h => h
  dying := Iff.rfl
  user := fun _ h => ⟨h, rfl, rfl⟩
  zero := fun h => ⟨h, rfl, rfl⟩

theorem Ok.refl (h : Inv cfg s g) : Ok cfg t s g s g := ⟨h, fun _ _ => Rely.refl⟩

/-- The thread has neither the lock nor a lease and is not inside `drop`. -/
structure Bare (t : Tid) (g : Ghost) : Prop where
  lock : g.lock ≠ some t
  lease : ∀ a, g.lease a ≠ .held t
  dying : t ∉ g.dying

theorem Local.bare {pc : Pc T} (h : Local cfg t s g pc) (h1 : pc.locks = false)
    (h2 : pc.holds = none) (h3 : pc.drops = false) : Bare t g where
  lock := fun hc => by
    have := h.lock.mp hc
    simp [h1] at this
  lease := fun a hc => by
    have := (h.lease a).mp hc
    simp [h2] at this
  dying := fun hc => by
    have := h.dying.mp hc
    simp [h3] at this

theorem Bare.toLocal {pc : Pc T} (h : Bare t g) (h1 : pc.locks = false) (h2 : pc.holds = none)
    (h3 : pc.drops = false) (hat : At cfg t s g pc) : Local cfg t s g pc where
  lock := iff_of_false h.lock (by simp [h1])
  lease := fun a => iff_of_false (h.lease a) (by simp [h2])
  dying := iff_of_false h.dying (by simp [h3])
  here := hat

/-- A step within a call that touches no ghost state of the thread. -/
theorem Local.next {pc pc' : Pc T} (h : Local cfg t s g pc) (h1 : pc'.locks = pc.locks)
    (h2 : pc'.holds = pc.holds) (h3 : pc'.drops = pc.drops) (hat : At cfg t s' g pc') :
    Local cfg t s' g pc' where
  lock := by rw [h1]; exact h.lock
  lease := fun a => by rw [h2]; exact h.lease a
  dying := by rw [h3]; exact h.dying
  here := hat

/-- A step on the thread's own locals. -/
theorem stay_ok (h : Inv cfg s g) {pc pc' : Pc T} (hl : Local cfg t s g pc)
    (h1 : pc'.locks = pc.locks) (h2 : pc'.holds = pc.holds) (h3 : pc'.drops = pc.drops)
    (hat : At cfg t s g pc') : StepOk cfg t s g (s, pc') :=
  ⟨⟨g, .refl h, hl.next h1 h2 h3 hat⟩, .inl rfl⟩

/-! ## Changing one shard -/

theorem modShard_self (s : Shared T) (a : Addr) (f : Shard T → Shard T) :
    (s.modShard a f).heap a = f (s.heap a) := update_self _ _ _

theorem modShard_ne (s : Shared T) {a b : Addr} (hb : b ≠ a) (f : Shard T → Shard T) :
    (s.modShard a f).heap b = s.heap b := update_of_ne hb _ _

/-- A field that the change leaves alone. -/
theorem modShard_field {α : Type*} (p : Shard T → α)
    (hf : p (f (s.heap a)) = p (s.heap a)) (b : Addr) :
    p ((s.modShard a f).heap b) = p (s.heap b) := by
  by_cases hb : b = a
  · subst hb
    rw [modShard_self, hf]
  · rw [modShard_ne s hb]

theorem Registry.modShard (h : Registry s g)
    (hid : (f (s.heap a)).id = (s.heap a).id) (hnext : (f (s.heap a)).next = (s.heap a).next) :
    Registry (s.modShard a f) g :=
  { h with
    ids := fun i b hb => by
      rw [modShard_field Shard.id hid]
      exact h.ids i b hb
    next := fun i b hb => by
      show ((s.modShard a f).heap b).next = _
      rw [modShard_field Shard.next hnext]
      exact h.next i b hb }

theorem Leases.modShard (h : Leases cfg s g)
    (hact : (f (s.heap a)).producerActive = (s.heap a).producerActive) :
    Leases cfg (s.modShard a f) g :=
  { h with
    active := fun b hb => by
      rw [modShard_field Shard.producerActive hact]
      exact h.active b hb }

theorem Flow.congr_queue (h : Flow s) (howned : s'.owned = s.owned)
    (hshard : s'.shardOf = s.shardOf) (hsends : s'.sends = s.sends) (hrecvs : s'.recvs = s.recvs)
    (hcursor : s'.cursor = s.cursor) (huser : s'.user = s.user) (htrace : s'.trace = s.trace)
    (hq : ∀ a, s'.queue a = s.queue a) : Flow s' where
  shard := by rw [hshard, howned]; exact h.shard
  home := by
    intro a ha e he
    rw [howned] at ha
    rw [hq] at he
    rw [hshard]
    exact h.home a ha e he
  send_lt := by rw [hsends, hshard]; exact h.send_lt
  recv_lt := by rw [hrecvs, hshard]; exact h.recv_lt
  flow := by
    intro k a hk
    rw [hshard] at hk
    rw [hsends, hrecvs, hq]
    exact h.flow k a hk
  cursor := by rw [hcursor, howned]; exact h.cursor
  handed := by
    intro r hr
    rw [huser] at hr
    show s'.trace.flatMap _ = (s'.recvs.filter _).map _
    rw [htrace, hrecvs]
    exact h.handed r hr

theorem Flow.modShard (h : Flow s)
    (hq : (f (s.heap a)).queue = (s.heap a).queue) : Flow (s.modShard a f) :=
  h.congr_queue rfl rfl rfl rfl rfl rfl rfl fun b => modShard_field Shard.queue hq b

/-! ## The lock -/

theorem lock_ok (h : Inv cfg s g) (hfree : s.locked = false) (hk : t ∈ s.lent k) :
    Ok cfg t s g { s with locked := true } { g with lock := some t } := by
  have hnone : g.lock = none := by
    by_contra hc
    simp [h.registry.locked.mpr hc] at hfree
  refine ⟨⟨{ h.registry with locked := by simp, settled := ?_ }, { h.leases with keeper := ?_ },
    { h.flow with }⟩, fun u hu => { Rely.refl with lock := ?_, mine := ?_, quiet := ?_ }⟩
  · exact nofun
  · intro u hu
    exact ⟨k, Option.some.inj hu ▸ hk⟩
  · rw [hnone]
    exact iff_of_false (not_mine rfl hu) (by simp)
  · rw [hnone]
    exact nofun
  · exact fun _ _ hq _ => hq

theorem unlock_ok (h : Inv cfg s g) (hown : g.lock = some t) (hset : Settled s g) :
    Ok cfg t s g { s with locked := false } { g with lock := none } := by
  refine ⟨⟨{ h.registry with locked := by simp, settled := fun _ => hset },
    { h.leases with keeper := nofun }, { h.flow with }⟩, fun u hu => { Rely.refl with
      lock := iff_of_false (by simp) (not_mine hown hu)
      mine := fun hc => absurd hc (not_mine hown hu)
      quiet := fun _ _ hq _ => hq }⟩

/-! ## Leases -/

/-- The lease of one shard passes from a state of this thread's concern to another. -/
theorem lease_iff {a b : Addr} (hold : g.lease a ≠ .held u)
    (hnew : l ≠ .held u) : update g.lease a l b = .held u ↔ g.lease b = .held u := by
  by_cases hb : b = a
  · subst hb
    rw [update_self]
    exact iff_of_false hnew hold
  · rw [update_of_ne hb]

theorem Leases.owned_update (h : Leases cfg s g) {a b : Addr} (ha : a ∈ s.owned)
    (hb : update g.lease a l b ≠ .free) : b ∈ s.owned := by
  by_cases hba : b = a
  · exact hba ▸ ha
  · rw [update_of_ne hba] at hb
    exact h.owned b hb

/-- The lease of one shard passes from one kind of holder to another. -/
theorem Leases.active_update (h : Leases cfg s g) {a b : Addr}
    (hold : g.lease a ≠ .free) (hnew : l ≠ .free) (hb : b ∈ s.owned) :
    (s.heap b).producerActive = true ↔ update g.lease a l b ≠ .free := by
  rw [h.active b hb]
  by_cases hba : b = a
  · subst hba
    rw [update_self]
    exact iff_of_true hold hnew
  · rw [update_of_ne hba]

theorem Leases.live_update (h : Leases cfg s g) {a b : Addr}
    (hold : g.lease a ≠ .live k) (hnew : l ≠ .live k) :
    update g.lease a l b = .live k ↔ k ∈ s.live ∧ s.shardOf[k]? = some b := by
  rw [← h.live_iff]
  by_cases hba : b = a
  · subst hba
    rw [update_self]
    exact iff_of_false hnew hold
  · rw [update_of_ne hba]

/-- The flag `producer_active` of one shard follows its lease. -/
theorem Leases.setActive (h : Leases cfg s g) (ha : a ∈ s.owned) {v : Bool}
    (hold : ∀ k, g.lease a ≠ .live k) (hnew : ∀ k, l ≠ .live k) (hv : v = true ↔ l ≠ .free) :
    Leases cfg (s.modShard a (·.setActive v)) { g with lease := update g.lease a l } :=
  { h with
    active := fun b hb => by
      show ((s.modShard a _).heap b).producerActive = true ↔ update g.lease a _ b ≠ _
      by_cases hba : b = a
      · subst hba
        rwa [modShard_self, update_self]
      · rw [modShard_ne s hba, update_of_ne hba]
        exact h.active b hb
    owned := fun _ => h.owned_update ha
    live_iff := fun _ k => h.live_update (hold k) (hnew k) }

/-- `try_acquire_producer` succeeds. -/
theorem lease_ok (h : Inv cfg s g) (hown : g.lock = some t) (ha : a ∈ s.owned)
    (hfree : g.lease a = .free) :
    Ok cfg t s g (s.modShard a (·.setActive true))
      { g with lease := update g.lease a (.held t) } :=
  ⟨⟨{ h.registry.modShard (a := a) (f := (·.setActive true)) rfl rfl with },
      h.leases.setActive ha (by simp [hfree]) (by simp) (by simp), h.flow.modShard rfl⟩,
    fun u hu => { Rely.refl with
      mine := fun hc => absurd hc (not_mine hown hu)
      lease := fun b => lease_iff (by simp [hfree]) fun hc => hu (Lease.held.inj hc).symm
      quiet := fun b _ hq _ => (modShard_field Shard.queue rfl b).trans hq }⟩

/-- `Sender::drop` gives the lease back. -/
theorem unlease_ok (h : Inv cfg s g) (hheld : g.lease a = .held t) :
    Ok cfg t s g (s.modShard a (·.setActive false))
      { g with lease := update g.lease a .free } := by
  refine ⟨⟨{ h.registry.modShard (a := a) (f := (·.setActive false)) rfl rfl with },
      h.leases.setActive (h.leases.owned a (by simp [hheld])) (by simp [hheld]) (by simp)
        (by simp), h.flow.modShard rfl⟩,
    fun u hu => { Rely.refl with
      mine := fun _ => ⟨rfl, rfl, rfl, fun b _ hb => ?_⟩
      lease := fun b => lease_iff (fun hc => hu (Lease.held.inj (hc.symm.trans hheld))) (by simp)
      quiet := fun b _ hq _ => (modShard_field Shard.queue rfl b).trans hq }⟩
  by_cases hba : b = a
  · subst hba
    rw [modShard_self]
    rfl
  · rwa [modShard_ne s hba]

/-! ## Appending a shard -/

theorem newShard_heap_self (s : Shared T) (a : Addr) :
    (s.newShard a).heap a = Shard.new s.nextId := update_self _ _ _

theorem newShard_heap_ne (s : Shared T) {a b : Addr} (hb : b ≠ a) :
    (s.newShard a).heap b = s.heap b := update_of_ne hb _ _

theorem Registry.newShard (h : Registry s g) (ha : a ∉ s.owned)
    (hset : Settled s g) (hlock : g.lock ≠ none) : Registry (s.newShard a) g := by
  have hnt : g.nt = s.owned.length := hset
  have h1 := h.nt_le
  have h2 := h.nl_le
  have hpos := h.nt_pos
  have hlen : (s.newShard a).owned.length = s.owned.length + 1 := by
    simp [Shared.newShard]
  have hold : ∀ i, i < s.owned.length → (s.newShard a).owned[i]? = s.owned[i]? :=
    fun i hi => List.getElem?_append_left hi
  refine ⟨?_, ?_, hpos, h1, by omega, by omega, ?_, ?_, ?_, h.locked, fun hc => absurd hc hlock⟩
  · intro i b hb
    rcases getElem?_concat_cases hb with hb | ⟨rfl, rfl⟩
    · have hba : b ≠ a := fun hc => ha (hc ▸ List.mem_of_getElem? hb)
      rw [newShard_heap_ne s hba]
      exact h.ids i b hb
    · rw [newShard_heap_self]
      exact h.next_id
  · rw [hlen]
    show s.nextId + 1 = _
    rw [h.next_id]
  · rw [hold 0 (by omega)]
    exact h.head
  · intro i b hb
    show ((s.newShard a).heap b).next = _
    rcases getElem?_concat_cases hb with hb | ⟨rfl, rfl⟩
    · have hi := (List.getElem?_eq_some_iff.mp hb).1
      have hba : b ≠ a := fun hc => ha (hc ▸ List.mem_of_getElem? hb)
      rw [newShard_heap_ne s hba]
      refine (h.next i b hb).trans ?_
      by_cases hlt : i + 1 < g.nl
      · rw [if_pos hlt, if_pos hlt, hold (i + 1) (by omega)]
      · rw [if_neg hlt, if_neg hlt]
    · rw [newShard_heap_self, if_neg (by omega)]
      rfl
  · rw [hold _ (by omega)]
    exact h.tail

/-- A new shard joins the arena; its first lease is the thread's. -/
theorem newShard_ok (h : Inv cfg s g) (hown : g.lock = some t) (hset : Settled s g)
    (ha : a ∉ s.owned) (hopen : s.senders ≠ 0) :
    Ok cfg t s g (s.newShard a) { g with lease := update g.lease a (.held t) } := by
  have hL := h.leases
  have hF := h.flow
  have hfree : g.lease a = .free := by
    by_contra hc
    exact ha (hL.owned a hc)
  have hne : ∀ b ∈ s.owned, b ≠ a := fun b hb hc => ha (hc ▸ hb)
  have hmem : ∀ b, b ∈ (s.newShard a).owned ↔ b ∈ s.owned ∨ b = a := by
    intro b
    simp [Shared.newShard]
  have hqueue : ∀ b ∈ s.owned, (s.newShard a).queue b = s.queue b := by
    intro b hb
    show ((s.newShard a).heap b).queue = _
    rw [newShard_heap_ne s (hne b hb)]
    rfl
  refine ⟨⟨{ h.registry.newShard ha hset (by simp [hown]) with },
    { hL with active := ?_, owned := ?_, live_iff := ?_ },
    { hF with shard := ?_, home := ?_, flow := ?_, cursor := ?_ }⟩,
    fun u hu => { Rely.refl with
      owned := List.prefix_append _ _, mine := ?_, lease := ?_, quiet := ?_, zero := ?_ }⟩
  · intro b hb
    show ((s.newShard a).heap b).producerActive = true ↔ update g.lease a _ b ≠ _
    rcases (hmem b).mp hb with hb | rfl
    · rw [newShard_heap_ne s (hne b hb), update_of_ne (hne b hb)]
      exact hL.active b hb
    · rw [newShard_heap_self, update_self]
      simp [Shard.new]
  · intro b hb
    rw [hmem]
    by_cases hba : b = a
    · exact .inr hba
    · exact .inl (hL.owned b (by simpa [update_of_ne hba] using hb))
  · exact fun b k => hL.live_update (by simp [hfree]) (by simp)
  · exact fun k b hk => (hmem b).mpr (.inl (hF.shard k b hk))
  · intro b hb e he
    rcases (hmem b).mp hb with hb | rfl
    · rw [hqueue b hb] at he
      exact hF.home b hb e he
    · have hnil : (s.newShard b).queue b = [] := by
        show ((s.newShard b).heap b).queue = []
        rw [newShard_heap_self]
        rfl
      simp [hnil] at he
  · intro k b hk
    rw [hqueue b (hF.shard k b hk)]
    exact hF.flow k b hk
  · exact fun r b hb => (hmem b).mpr (.inl (hF.cursor r b hb))
  · exact fun hc => absurd hc (not_mine hown hu)
  · exact fun b => lease_iff (by simp [hfree]) fun hc => hu (Lease.held.inj hc).symm
  · exact fun b hb hq _ => (hqueue b hb).trans hq
  · exact fun hz => absurd hz hopen

/-- The link to the new shard is stored. -/
theorem link_ok (h : Inv cfg s g) (hown : g.lock = some t) {a b : Addr}
    (hlast : s.owned[g.nt]? = some a) (hnl : g.nl = g.nt) (hb : s.tail = some b) :
    Ok cfg t s g (s.modShard b (·.setNext (some a))) { g with nl := g.nt + 1 } := by
  have hR := h.registry
  have hpos := hR.nt_pos
  have hlen := hR.len_le
  have hlt : g.nt < s.owned.length := (List.getElem?_eq_some_iff.mp hlast).1
  have hbt : s.owned[g.nt - 1]? = some b := hR.tail.symm.trans hb
  refine ⟨⟨{ hR with ids := ?_, nt_le := Nat.le_succ _, nl_le := hlt, next := ?_ },
    { h.leases.modShard rfl with }, h.flow.modShard rfl⟩,
    fun u hu => { Rely.refl with mine := ?_, quiet := ?_ }⟩
  · intro i c hc
    rw [modShard_field Shard.id rfl]
    exact hR.ids i c hc
  · intro i c hc
    show ((s.modShard b _).heap c).next = if i + 1 < g.nt + 1 then s.owned[i + 1]? else none
    by_cases hcb : c = b
    · subst hcb
      -- shard ids tell positions apart, so this is the tail
      have hi : i = g.nt - 1 := (hR.ids i c hc).symm.trans (hR.ids _ c hbt)
      rw [modShard_self, if_pos (by omega), hi, Nat.sub_add_cancel hpos, hlast]
      rfl
    · have hi : i ≠ g.nt - 1 := by
        rintro rfl
        exact hcb (Option.some.inj (hc.symm.trans hbt))
      rw [modShard_ne s hcb]
      refine (hR.next i c hc).trans ?_
      by_cases hin : i + 1 < g.nl
      · rw [if_pos hin, if_pos (by omega)]
      · rw [if_neg hin, if_neg (by omega)]
  · exact fun hc => absurd hc (not_mine hown hu)
  · exact fun c _ hq _ => (modShard_field Shard.queue rfl c).trans hq

/-- The tail moves to the new shard. -/
theorem store_ok (h : Inv cfg s g) (hown : g.lock = some t)
    (hlast : s.owned[g.nt]? = some a) (hnl : g.nl = g.nt + 1) :
    Ok cfg t s g { s with tail := some a } { g with nt := g.nt + 1 } := by
  have hR := h.registry
  have hlen := hR.len_le
  refine ⟨⟨{ hR with
      nt_pos := Nat.succ_pos _, nt_le := Nat.le_of_eq hnl.symm, len_le := Nat.le_succ_of_le hlen,
      tail := hlast.symm, settled := fun hc => absurd hc (by simp [hown]) },
    { h.leases with }, { h.flow with }⟩,
    fun u hu => { Rely.refl with nt := Nat.le_succ _, mine := ?_, quiet := fun _ _ hq _ => hq }⟩
  exact fun hc => absurd hc (not_mine hown hu)

/-! ## Borrows and returns -/

theorem lend_ok (h : Inv cfg s g) (hk : k ∈ s.live) : Ok cfg t s g (s.lend k t) g := by
  have hsub : ∀ j u, u ∈ s.lent j → u ∈ (s.lend k t).lent j := by
    intro j u hu
    show u ∈ update s.lent k _ j
    by_cases hj : j = k
    · subst hj
      rw [update_self]
      exact List.mem_cons_of_mem _ hu
    · rwa [update_of_ne hj]
  refine ⟨⟨{ h.registry with }, { h.leases with lent := ?_, keeper := ?_ }, { h.flow with }⟩,
    fun u hu => { Rely.refl with lent := fun j => hsub j u, quiet := fun _ _ hq _ => hq }⟩
  · intro j u hu
    by_cases hj : j = k
    · exact hj ▸ hk
    · refine h.leases.lent j u ?_
      have hu' : u ∈ update s.lent k (t :: s.lent k) j := hu
      rwa [update_of_ne hj] at hu'
  · intro u hu
    obtain ⟨j, hj⟩ := h.leases.keeper u hu
    exact ⟨j, hsub j u hj⟩

/-- The end of a borrow together with a change that other threads cannot see. -/
theorem lent_unlend {k j : ℕ} (hu : u ≠ t) (h : u ∈ s.lent j) : u ∈ (s.unlend k t).lent j := by
  show u ∈ update s.lent k _ j
  by_cases hj : j = k
  · subst hj
    rw [update_self]
    exact (List.mem_erase_of_ne hu).mpr h
  · rwa [update_of_ne hj]

theorem lent_of_unlend {k j : ℕ} (h : u ∈ (s.unlend k t).lent j) : u ∈ s.lent j := by
  have h' : u ∈ update s.lent k ((s.lent k).erase t) j := h
  by_cases hj : j = k
  · subst hj
    rw [update_self] at h'
    exact List.mem_of_mem_erase h'
  · rwa [update_of_ne hj] at h'

theorem unlend_ok (h : Inv cfg s g) (hlock : g.lock ≠ some t) (k : ℕ) :
    Ok cfg t s g (s.unlend k t) g := by
  refine ⟨⟨{ h.registry with }, { h.leases with lent := ?_, keeper := ?_ }, { h.flow with }⟩,
    fun _ hu => { Rely.refl with lent := fun _ => lent_unlend hu, quiet := fun _ _ hq _ => hq }⟩
  · exact fun j u hu => h.leases.lent j u (lent_of_unlend hu)
  · intro u hu
    obtain ⟨j, hj⟩ := h.leases.keeper u hu
    have hut : u ≠ t := by
      rintro rfl
      exact hlock hu
    exact ⟨j, lent_unlend hut hj⟩

/-! ## Senders come and go -/

theorem valuesOf_eq_nil {l : List (ℕ × T)} (h : ∀ e ∈ l, e.1 ≠ k) : valuesOf k l = [] := by
  rw [valuesOf, List.map_eq_nil_iff, List.filter_eq_nil_iff]
  intro e he
  simpa using h e he

theorem Leases.pos_of_live (h : Leases cfg s g) (hk : k ∈ s.live) : s.senders ≠ 0 := by
  have := List.length_pos_of_mem hk
  rw [h.count]
  omega

/-- `Sender::clone` ends: the lease passes to the new sender. -/
theorem created_ok (h : Inv cfg s g) (hheld : g.lease a = .held t)
    (hempty : s.queue a = []) (hopen : s.senders ≠ 0) (hmax : s.senders < cfg.usizeMax) :
    Ok cfg t s g { s with
        senders := s.senders + 1
        shardOf := s.shardOf ++ [a]
        live := s.shardOf.length :: s.live }
      { g with lease := update g.lease a (.live s.shardOf.length) } := by
  have hL := h.leases
  have hF := h.flow
  have ha : a ∈ s.owned := hL.owned a (by simp [hheld])
  have hnew : s.shardOf.length ∉ s.live := fun hc => absurd (hL.live_lt _ hc) (by simp)
  have hkeep : ∀ k b, s.shardOf[k]? = some b → (s.shardOf ++ [a])[k]? = some b :=
    fun k b hb => getElem?_of_prefix (List.prefix_append _ _) hb
  refine ⟨⟨{ h.registry with }, ⟨?_, ?_, ?_, ?_, ?_, hL.dying, ?_, ?_, ?_, hL.keeper⟩,
    { hF with shard := ?_, home := ?_, send_lt := ?_, recv_lt := ?_, flow := ?_ }⟩,
    fun u hu => { Rely.refl with
      lease := ?_, quiet := fun _ _ hq _ => hq, zero := fun hz => absurd hz hopen }⟩
  · exact fun b hb => hL.active_update (by simp [hheld]) (by simp) hb
  · exact fun b => hL.owned_update ha
  · intro b k
    show update g.lease a _ b = _ ↔ k ∈ s.shardOf.length :: s.live ∧ _
    by_cases hba : b = a
    · subst hba
      rw [update_self]
      constructor
      · intro hk
        obtain rfl := Lease.live.inj hk
        exact ⟨List.mem_cons_self, List.getElem?_concat_length⟩
      · rintro ⟨hk, hb⟩
        rcases getElem?_concat_cases hb with hb | ⟨rfl, _⟩
        · rcases List.mem_cons.mp hk with rfl | hk
          · rfl
          · simp [(hL.live_iff b k).mpr ⟨hk, hb⟩] at hheld
        · rfl
    · rw [update_of_ne hba, hL.live_iff]
      constructor
      · rintro ⟨hk, hb⟩
        exact ⟨List.mem_cons_of_mem _ hk, hkeep k b hb⟩
      · rintro ⟨hk, hb⟩
        rcases getElem?_concat_cases hb with hb | ⟨_, rfl⟩
        · rcases List.mem_cons.mp hk with rfl | hk
          · exact absurd (List.getElem?_eq_some_iff.mp hb).1 (by simp)
          · exact ⟨hk, hb⟩
        · exact absurd rfl hba
  · intro k hk
    rw [List.length_append, List.length_singleton]
    rcases List.mem_cons.mp hk with rfl | hk
    · exact Nat.lt_succ_self _
    · exact Nat.lt_succ_of_lt (hL.live_lt k hk)
  · exact List.nodup_cons.mpr ⟨hnew, hL.nodup⟩
  · show s.senders + 1 = (s.shardOf.length :: s.live).length + g.dying.length
    rw [List.length_cons, hL.count]
    omega
  · show s.senders + 1 ≤ cfg.usizeMax + 1
    omega
  · exact fun k u hu => List.mem_cons_of_mem _ (hL.lent k u hu)
  · intro k b hb
    rcases getElem?_concat_cases hb with hb | ⟨_, rfl⟩
    · exact hF.shard k b hb
    · exact ha
  · exact fun b hb e he => hkeep _ _ (hF.home b hb e he)
  · intro e he
    rw [List.length_append]
    exact Nat.lt_add_right _ (hF.send_lt e he)
  · intro e he
    rw [List.length_append]
    exact Nat.lt_add_right _ (hF.recv_lt e he)
  · intro k b hb
    rcases getElem?_concat_cases hb with hb | ⟨rfl, rfl⟩
    · exact hF.flow k b hb
    · -- nothing was sent under the new name yet
      have hsends : valuesOf s.shardOf.length s.sends = [] :=
        valuesOf_eq_nil fun e he => (hF.send_lt e he).ne
      have hrecvs : valuesOf s.shardOf.length (s.recvs.map Prod.snd) = [] := by
        refine valuesOf_eq_nil fun e he => ?_
        obtain ⟨e', he', rfl⟩ := List.mem_map.mp he
        exact (hF.recv_lt e' he').ne
      show valuesOf _ s.sends = valuesOf _ (s.recvs.map Prod.snd) ++ valuesOf _ (s.queue b)
      rw [hsends, hrecvs, hempty]
      rfl
  · exact fun b => lease_iff (fun hc => hu (Lease.held.inj (hc.symm.trans hheld))) (by simp)

/-- A panic in `add_sender` leaves the shard leased for good. -/
theorem lost_ok (h : Inv cfg s g) (hheld : g.lease a = .held t) :
    Ok cfg t s g s { g with lease := update g.lease a .lost } := by
  have hL := h.leases
  refine ⟨⟨{ h.registry with }, { hL with active := ?_, owned := ?_, live_iff := ?_ },
    { h.flow with }⟩, fun u hu => { Rely.refl with lease := ?_, quiet := fun _ _ hq _ => hq }⟩
  · exact fun b hb => hL.active_update (by simp [hheld]) (by simp) hb
  · exact fun b => hL.owned_update (hL.owned a (by simp [hheld]))
  · exact fun b k => hL.live_update (by simp [hheld]) (by simp)
  · exact fun b => lease_iff (fun hc => hu (Lease.held.inj (hc.symm.trans hheld))) (by simp)

/-- `Sender::drop` begins: the thread takes the lease of the sender. -/
theorem dropping_ok (h : Inv cfg s g) (hk : k ∈ s.live)
    (hlent : s.lent k = []) (ha : s.shardOf[k]? = some a) (ht : t ∉ g.dying) :
    Ok cfg t s g { s with live := s.live.erase k }
      { g with lease := update g.lease a (.held t), dying := t :: g.dying } := by
  have hL := h.leases
  have hlive : g.lease a = .live k := (hL.live_iff a k).mpr ⟨hk, ha⟩
  refine ⟨⟨{ h.registry with }, ⟨?_, ?_, ?_, ?_, hL.nodup.erase k, ?_, ?_, hL.bound, ?_, hL.keeper⟩,
    { h.flow with }⟩,
    fun u hu => { Rely.refl with lease := ?_, dying := ?_, quiet := fun _ _ hq _ => hq }⟩
  · exact fun b hb => hL.active_update (by simp [hlive]) (by simp) hb
  · exact fun b => hL.owned_update (hL.owned a (by simp [hlive]))
  · intro b j
    show update g.lease a _ b = _ ↔ j ∈ s.live.erase k ∧ _
    rw [hL.nodup.mem_erase_iff]
    by_cases hba : b = a
    · subst hba
      rw [update_self]
      refine iff_of_false (by simp) fun ⟨⟨hne, hj⟩, hb⟩ => ?_
      rw [(hL.live_iff b j).mpr ⟨hj, hb⟩] at hlive
      exact hne (Lease.live.inj hlive)
    · rw [update_of_ne hba, hL.live_iff]
      constructor
      · rintro ⟨hj, hb⟩
        refine ⟨⟨?_, hj⟩, hb⟩
        rintro rfl
        exact hba (Option.some.inj (hb.symm.trans ha))
      · rintro ⟨⟨_, hj⟩, hb⟩
        exact ⟨hj, hb⟩
  · exact fun j hj => hL.live_lt j (List.mem_of_mem_erase hj)
  · exact List.nodup_cons.mpr ⟨ht, hL.dying⟩
  · have := List.length_pos_of_mem hk
    rw [List.length_erase_of_mem hk, List.length_cons, hL.count]
    omega
  · intro j u hu
    rw [hL.nodup.mem_erase_iff]
    refine ⟨?_, hL.lent j u hu⟩
    rintro rfl
    simp [hlent] at hu
  · exact fun b => lease_iff (by simp [hlive]) (fun hc => hu (Lease.held.inj hc).symm)
  · exact ⟨fun hc => (List.mem_cons.mp hc).resolve_left hu, List.mem_cons_of_mem _⟩

/-- `Sender::drop` ends: the count goes down, and it does not wrap. -/
theorem dropped_ok (h : Inv cfg s g) (ht : t ∈ g.dying) :
    Ok cfg t s g { s with senders := (s.senders + cfg.usizeMax) % (cfg.usizeMax + 1) }
      { g with dying := g.dying.erase t } := by
  have hL := h.leases
  have hpos := List.length_pos_of_mem ht
  have hcount := hL.count
  have hbound := hL.bound
  have hmod : (s.senders + cfg.usizeMax) % (cfg.usizeMax + 1) = s.senders - 1 := by
    have : s.senders + cfg.usizeMax = s.senders - 1 + (cfg.usizeMax + 1) := by omega
    rw [this, Nat.add_mod_right, Nat.mod_eq_of_lt (by omega)]
  rw [hmod]
  refine ⟨⟨{ h.registry with }, { hL with dying := hL.dying.erase t, count := ?_, bound := ?_ },
    { h.flow with }⟩, fun u hu => { Rely.refl with
      dying := List.mem_erase_of_ne hu, quiet := fun _ _ hq _ => hq, zero := fun hz => ?_ }⟩
  · show s.senders - 1 = s.live.length + (g.dying.erase t).length
    rw [List.length_erase_of_mem ht]
    omega
  · show s.senders - 1 ≤ cfg.usizeMax + 1
    omega
  · omega

/-! ## Values -/

theorem valuesOf_append (k : ℕ) (l m : List (ℕ × T)) :
    valuesOf k (l ++ m) = valuesOf k l ++ valuesOf k m := by
  simp [valuesOf]

theorem valuesOf_tagged_ne {k j : ℕ} (hkj : j ≠ k) (vs : List T) :
    valuesOf k (vs.map (j, ·)) = [] := by
  refine valuesOf_eq_nil fun e he => ?_
  obtain ⟨v, _, rfl⟩ := List.mem_map.mp he
  exact hkj

theorem push_queue_self (s : Shared T) (a : Addr) (k : ℕ) (vs : List T) :
    (s.push a k vs).queue a = s.queue a ++ vs.map (k, ·) :=
  congrArg Shard.queue (modShard_self s a (·.push k vs))

theorem push_queue_ne (s : Shared T) {a b : Addr} (hb : b ≠ a) (k : ℕ) (vs : List T) :
    (s.push a k vs).queue b = s.queue b :=
  congrArg Shard.queue (modShard_ne s hb (·.push k vs))

/-- A live sender pushes. -/
theorem push_ok (h : Inv cfg s g) (hk : k ∈ s.live)
    (ha : s.shardOf[k]? = some a) (vs : List T) : Ok cfg t s g (s.push a k vs) g := by
  have hL := h.leases
  have hF := h.flow
  have hlive : g.lease a = .live k := (hL.live_iff a k).mpr ⟨hk, ha⟩
  have hk' : k < s.shardOf.length := hL.live_lt k hk
  refine ⟨⟨{ h.registry.modShard (a := a) (f := (·.push k vs)) rfl rfl with },
    { hL.modShard (a := a) (f := (·.push k vs)) rfl with },
    { hF with home := ?_, send_lt := ?_, flow := ?_ }⟩,
    fun u _ => { Rely.refl with mine := ?_, quiet := ?_ }⟩
  · intro b hb e he
    by_cases hba : b = a
    · subst hba
      rw [push_queue_self] at he
      rcases List.mem_append.mp he with he | he
      · exact hF.home b hb e he
      · obtain ⟨v, _, rfl⟩ := List.mem_map.mp he
        exact ha
    · rw [push_queue_ne s hba] at he
      exact hF.home b hb e he
  · intro e he
    rcases List.mem_append.mp he with he | he
    · exact hF.send_lt e he
    · obtain ⟨v, _, rfl⟩ := List.mem_map.mp he
      exact hk'
  · intro j b hj
    show valuesOf j (s.sends ++ vs.map (k, ·)) = valuesOf j (s.recvs.map Prod.snd) ++ _
    rw [valuesOf_append, hF.flow j b hj]
    by_cases hjk : j = k
    · subst hjk
      obtain rfl : a = b := Option.some.inj (ha.symm.trans hj)
      rw [push_queue_self, valuesOf_append, List.append_assoc]
    · rw [valuesOf_tagged_ne (Ne.symm hjk), List.append_nil]
      by_cases hba : b = a
      · subst hba
        rw [push_queue_self, valuesOf_append, valuesOf_tagged_ne (Ne.symm hjk), List.append_nil]
      · rw [push_queue_ne s hba]
  · refine fun _ => ⟨rfl, rfl, rfl, fun b _ hb => ?_⟩
    exact (modShard_field Shard.producerActive (f := (·.push k vs)) rfl b).trans hb
  · intro b hb hq hor
    have hba : b ≠ a := by
      rintro rfl
      rcases hor with ⟨hact, _⟩ | hheld | hzero
      · simp [(hL.active b hb).mpr (by simp [hlive])] at hact
      · simp [hlive] at hheld
      · exact hL.pos_of_live hk hzero
    rwa [push_queue_ne s hba]

theorem pop_queue_self (s : Shared T) (r : ℕ) (a : Addr) (n : ℕ) :
    (s.pop r a n).queue a = (s.queue a).drop n :=
  congrArg Shard.queue (modShard_self s a (·.pop n))

theorem pop_queue_ne (s : Shared T) (r : ℕ) {a b : Addr} (hb : b ≠ a) (n : ℕ) :
    (s.pop r a n).queue b = s.queue b :=
  congrArg Shard.queue (modShard_ne s hb (·.pop n))

theorem pop_popped (s : Shared T) (r r' : ℕ) (a : Addr) (n : ℕ) : (s.pop r a n).popped r' =
    s.popped r' ++ if r = r' then ((s.queue a).take n).map Prod.snd else [] := by
  have htag : (((s.queue a).take n).map (r, ·)).filter (·.1 = r') =
      if r = r' then ((s.queue a).take n).map (r, ·) else [] := by
    split
    · rename_i hr
      exact List.filter_eq_self.mpr fun e he => by
        obtain ⟨_, _, rfl⟩ := List.mem_map.mp he
        simpa using hr
    · rename_i hr
      exact List.filter_eq_nil_iff.mpr fun e he => by
        obtain ⟨_, _, rfl⟩ := List.mem_map.mp he
        simpa using hr
  show ((s.recvs ++ ((s.queue a).take n).map (r, ·)).filter _).map _ = _
  rw [List.filter_append, List.map_append, htag]
  split
  · rw [List.map_map]
    rfl
  · rfl

theorem pop_popped_self (s : Shared T) (r : ℕ) (a : Addr) (n : ℕ) :
    (s.pop r a n).popped r = s.popped r ++ ((s.queue a).take n).map Prod.snd := by
  rw [pop_popped, if_pos rfl]

theorem pop_popped_ne (s : Shared T) {r r' : ℕ} (hr : r' ≠ r) (a : Addr) (n : ℕ) :
    (s.pop r a n).popped r' = s.popped r' := by
  rw [pop_popped, if_neg (Ne.symm hr), List.append_nil]

/-- The receiver of the running call pops. -/
theorem pop_ok (h : Inv cfg s g) {r : ℕ} (hr : s.user r = some t) (ha : a ∈ s.owned)
    (n : ℕ) : Ok cfg t s g (s.pop r a n) g := by
  have hF := h.flow
  refine ⟨⟨{ h.registry.modShard (a := a) (f := (·.pop n)) rfl rfl with },
    { h.leases.modShard (a := a) (f := (·.pop n)) rfl with },
    { hF with home := ?_, recv_lt := ?_, flow := ?_, handed := ?_ }⟩,
    fun u hu => { Rely.refl with mine := ?_, quiet := ?_, user := ?_ }⟩
  · intro b hb e he
    by_cases hba : b = a
    · subst hba
      rw [pop_queue_self] at he
      exact hF.home b hb e (List.mem_of_mem_drop he)
    · rw [pop_queue_ne s r hba] at he
      exact hF.home b hb e he
  · intro e he
    rcases List.mem_append.mp he with he | he
    · exact hF.recv_lt e he
    · obtain ⟨e', he', rfl⟩ := List.mem_map.mp he
      exact (List.getElem?_eq_some_iff.mp (hF.home a ha e' (List.mem_of_mem_take he'))).1
  · intro j b hj
    show valuesOf j s.sends =
      valuesOf j ((s.recvs ++ ((s.queue a).take n).map (r, ·)).map Prod.snd) ++ _
    have htag : (((s.queue a).take n).map (r, ·)).map Prod.snd = (s.queue a).take n := by
      rw [List.map_map]
      exact List.map_id _
    rw [List.map_append, htag, valuesOf_append, hF.flow j b hj, List.append_assoc]
    by_cases hba : b = a
    · subst hba
      rw [pop_queue_self, ← valuesOf_append j ((s.queue b).take n), List.take_append_drop]
    · have hnone : valuesOf j ((s.queue a).take n) = [] := by
        refine valuesOf_eq_nil fun e he hej => ?_
        have hhome := hF.home a ha e (List.mem_of_mem_take he)
        rw [hej] at hhome
        exact hba (Option.some.inj (hj.symm.trans hhome))
      rw [pop_queue_ne s r hba, hnone, List.nil_append]
  · intro r' hr'
    have hne : r' ≠ r := by
      rintro rfl
      simp [show (s.pop r' a n).user r' = s.user r' from rfl, hr] at hr'
    rw [pop_popped_ne s hne]
    exact hF.handed r' hr'
  · refine fun _ => ⟨rfl, rfl, rfl, fun b _ hb => ?_⟩
    exact (modShard_field Shard.producerActive (f := (·.pop n)) rfl b).trans hb
  · intro b _ hq _
    by_cases hba : b = a
    · subst hba
      rw [pop_queue_self, hq]
      exact List.drop_nil
    · rwa [pop_queue_ne s r hba]
  · intro r' hr'
    have hne : r' ≠ r := by
      rintro rfl
      exact hu (Option.some.inj (hr'.symm.trans hr))
    exact ⟨hr', rfl, pop_popped_ne s hne a n⟩

/-! ## Receivers -/

theorem cursor_ok (h : Inv cfg s g) (r : ℕ) {p : Option Addr} (hp : ∀ a, p = some a → a ∈ s.owned) :
    Ok cfg t s g (s.setCursor r p) g := by
  refine ⟨⟨{ h.registry with }, { h.leases with }, { h.flow with cursor := ?_ }⟩,
    fun u _ => { Rely.refl with quiet := fun _ _ hq _ => hq }⟩
  intro r' a ha
  have ha' : update s.cursor r p r' = some a := ha
  by_cases hr : r' = r
  · subst hr
    rw [update_self] at ha'
    exact hp a ha'
  · rw [update_of_ne hr] at ha'
    exact h.flow.cursor r' a ha'

/-- A receiving call begins. -/
theorem user_ok (h : Inv cfg s g) {r : ℕ} (hr : s.user r = none) :
    Ok cfg t s g (s.setUser r (some t)) g := by
  have hother : ∀ r', r' ≠ r → (s.setUser r (some t)).user r' = s.user r' :=
    fun r' hr' => update_of_ne hr' _ _
  refine ⟨⟨{ h.registry with }, { h.leases with }, { h.flow with handed := ?_ }⟩,
    fun u _ => { Rely.refl with quiet := fun _ _ hq _ => hq, user := ?_ }⟩
  · intro r' hr'
    have hne : r' ≠ r := by
      rintro rfl
      simp [show (s.setUser r' (some t)).user r' = some t from update_self _ _ _] at hr'
    rw [hother r' hne] at hr'
    exact h.flow.handed r' hr'
  · intro r' hr'
    have hne : r' ≠ r := by
      rintro rfl
      simp [hr] at hr'
    exact ⟨(hother r' hne).trans hr', rfl, rfl⟩

theorem got_ret (s : Shared T) (e : Tid × Op T × Res T) (r : ℕ) :
    ({ s with trace := s.trace ++ [e] } : Shared T).got r = s.got r ++ handed r e.2.1 e.2.2 := by
  simp [Shared.got]

/-- A call that hands no value to a receiver returns. -/
theorem trace_ok (h : Inv cfg s g) {op : Op T} {res : Res T} (hnil : ∀ r, handed r op res = []) :
    Ok cfg t s g { s with trace := s.trace ++ [(t, op, res)] } g := by
  have hgot : ∀ r, ({ s with trace := s.trace ++ [(t, op, res)] } : Shared T).got r = s.got r := by
    intro r
    rw [got_ret, hnil r, List.append_nil]
  exact ⟨⟨{ h.registry with }, { h.leases with }, { h.flow with
      handed := fun r hr => (hgot r).trans (h.flow.handed r hr) }⟩,
    fun u _ => { Rely.refl with
      quiet := fun _ _ hq _ => hq, user := fun r hr => ⟨hr, hgot r, rfl⟩ }⟩

/-- A receiving call returns with all it has popped. -/
theorem retRecv_ok (h : Inv cfg s g) {x : Recv T} (hx : Receiving t s x) {res : Res T}
    (hself : handed x.r x.op res = x.received)
    (hother : ∀ r, r ≠ x.r → handed r x.op res = []) :
    Ok cfg t s g (retRecv s t x res).1 g := by
  have hgot : ∀ r, (retRecv s t x res).1.got r = s.got r ++ handed r x.op res :=
    fun r => got_ret (s.setUser x.r none) (t, x.op, res) r
  have huser : ∀ r, r ≠ x.r → (retRecv s t x res).1.user r = s.user r :=
    fun r hr => update_of_ne hr _ _
  refine ⟨⟨{ h.registry with }, { h.leases with }, { h.flow with handed := ?_ }⟩,
    fun u hu => { Rely.refl with quiet := fun _ _ hq _ => hq, user := ?_ }⟩
  · intro r hr
    rw [hgot]
    by_cases hrx : r = x.r
    · rw [hrx, hself]
      exact hx.popped
    · rw [hother r hrx, List.append_nil]
      rw [huser r hrx] at hr
      exact h.flow.handed r hr
  · intro r hr
    have hrx : r ≠ x.r := by
      rintro rfl
      exact hu (Option.some.inj (hr.symm.trans hx.user))
    refine ⟨(huser r hrx).trans hr, ?_, rfl⟩
    rw [hgot, hother r hrx, List.append_nil]

/-! ## Composing moves -/

theorem Rely.trans {s'' : Shared T} {g'' : Ghost} (h : Rely u s g s' g')
    (h' : Rely u s' g' s'' g'') : Rely u s g s'' g'' where
  owned := h.owned.trans h'.owned
  nt := Nat.le_trans h.nt h'.nt
  lock := h'.lock.trans h.lock
  mine := fun hlock => by
    obtain ⟨ho, hnt, hnl, hact⟩ := h.mine hlock
    obtain ⟨ho', hnt', hnl', hact'⟩ := h'.mine (h.lock.mpr hlock)
    exact ⟨ho'.trans ho, hnt'.trans hnt, hnl'.trans hnl,
      fun a ha hf => hact' a (ho.symm ▸ ha) (hact a ha hf)⟩
  lease := fun a => (h'.lease a).trans (h.lease a)
  quiet := fun a ha hq hor => by
    refine h'.quiet a (h.owned.subset ha) (h.quiet a ha hq hor) ?_
    rcases hor with ⟨hact, hlock⟩ | hheld | hzero
    · exact .inl ⟨(h.mine hlock).2.2.2 a ha hact, h.lock.mpr hlock⟩
    · exact .inr (.inl ((h.lease a).mpr hheld))
    · exact .inr (.inr (h.zero hzero).1)
  lent := fun k hk => h'.lent k (h.lent k hk)
  dying := h'.dying.trans h.dying
  user := fun r hr => by
    obtain ⟨hr', hgot, hpop⟩ := h.user r hr
    obtain ⟨hr'', hgot', hpop'⟩ := h'.user r hr'
    exact ⟨hr'', hgot'.trans hgot, hpop'.trans hpop⟩
  zero := fun hz => by
    obtain ⟨hz', ho, hsh⟩ := h.zero hz
    obtain ⟨hz'', ho', hsh'⟩ := h'.zero hz'
    exact ⟨hz'', ho'.trans ho, hsh'.trans hsh⟩

theorem Ok.trans {s'' : Shared T} {g'' : Ghost} (h : Ok cfg t s g s' g')
    (h' : Ok cfg t s' g' s'' g'') : Ok cfg t s g s'' g'' :=
  ⟨h'.inv, fun u hu => (h.rely u hu).trans (h'.rely u hu)⟩

end Lubq
