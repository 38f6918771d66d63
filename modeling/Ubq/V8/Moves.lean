/-
# Changes of the shared state that leave the queue alone

`Ok t s g s' g'` says that going from `(s, g)` to `(s', g')` keeps the invariant
and stays within what every thread other than `t` relies on.  This module
proves it for the changes that only concern private blocks: writing to a block
the thread holds, allocating, freeing, and joining two private lists.
-/
import Ubq.V8.Stable

namespace V8

open Function

variable {T : Type*} {cfg : Config} {t u : Tid} {s s' s'' : Shared T} {g g' g'' : Ghost T}
variable {a b : Addr} {l : List Addr} {k : ℕ} {x : Own Tid}

theorem Rely.refl (u : Tid) (s : Shared T) (g : Ghost T) : Rely u s g s g where
  ledger := Ledger.Frame.refl u g.L
  covers := fun _ _ h => h
  linked := List.prefix_refl _
  resv := rfl
  deliv := fun _ h => h
  held := fun _ h => ⟨h, rfl⟩
  keeps := fun _ h => h
  vstat := fun _ _ => Iff.rfl
  pk := le_refl _
  pidx := Or.inl ⟨rfl, rfl, rfl⟩
  pown := fun _ => ⟨rfl, rfl, rfl, rfl⟩
  pown_iff := Iff.rfl
  cidx := Or.inl ⟨rfl, rfl, rfl⟩
  cown := fun _ => ⟨rfl, rfl⟩
  cown_iff := Iff.rfl
  fown_iff := Iff.rfl

theorem Rely.trans (h : Rely u s g s' g') (h' : Rely u s' g' s'' g'') : Rely u s g s'' g'' where
  ledger := h.ledger.trans h'.ledger
  covers := fun a n hc => h'.covers a n (h.covers a n hc)
  linked := h.linked.trans h'.linked
  resv := h'.resv.trans h.resv
  deliv := fun e he => h'.deliv e (h.deliv e he)
  held := fun a ha => by
    obtain ⟨h1, h2⟩ := h.held a ha
    obtain ⟨h3, h4⟩ := h'.held a h1
    exact ⟨h3, h4.trans h2⟩
  keeps := fun a ha => h.keeps a (h'.keeps a ha)
  vstat := fun k v => (h'.vstat k v).trans (h.vstat k v)
  pk := h.pk.trans h'.pk
  pidx := by
    rcases h.pidx with ⟨h1, h2, h3⟩ | h1 <;> rcases h'.pidx with ⟨h4, h5, h6⟩ | h4
    · exact Or.inl ⟨h4.trans h1, h5.trans h2, h6.trans h3⟩
    · right; omega
    · right; omega
    · right; omega
  pown := fun hu => by
    obtain ⟨h1, h2, h3, h4⟩ := h.pown hu
    obtain ⟨h5, h6, h7, h8⟩ := h'.pown (h.pown_iff.mpr hu)
    exact ⟨h5.trans h1, h6.trans h2, h7.trans h3, h8.trans h4⟩
  pown_iff := h'.pown_iff.trans h.pown_iff
  cidx := by
    rcases h.cidx with ⟨h1, h2, h3⟩ | h1 <;> rcases h'.cidx with ⟨h4, h5, h6⟩ | h4
    · exact Or.inl ⟨h4.trans h1, h5.trans h2, h6.trans h3⟩
    · right; omega
    · right; omega
    · right; omega
  cown := fun hu => by
    obtain ⟨h1, h2⟩ := h.cown hu
    obtain ⟨h3, h4⟩ := h'.cown (h.cown_iff.mpr hu)
    exact ⟨h3.trans h1, h4.trans h2⟩
  cown_iff := h'.cown_iff.trans h.cown_iff
  fown_iff := h'.fown_iff.trans h.fown_iff

/-- The invariant is kept and the other threads are not disturbed. -/
structure Ok (cfg : Config) (t : Tid) (s : Shared T) (g : Ghost T) (s' : Shared T)
    (g' : Ghost T) : Prop where
  inv : Inv cfg s' g'
  rely : ∀ u, u ≠ t → Rely u s g s' g'

theorem Ok.refl (h : Inv cfg s g) : Ok cfg t s g s g := ⟨h, fun u _ => Rely.refl u s g⟩

theorem Ok.trans (h : Ok cfg t s g s' g') (h' : Ok cfg t s' g' s'' g'') :
    Ok cfg t s g s'' g'' :=
  ⟨h'.inv, fun u hu => (h.rely u hu).trans (h'.rely u hu)⟩

/-- What the history promises about a finished call. -/
def Done (s : Shared T) (g : Ghost T) (t : Tid) : Op T → Res T → Prop
  | .writeFrom src, res => res = .left [] ∧
      (src = [] ∨ ∃ a, (t, a, src) ∈ s.reservations ∧ g.L.Sent a src)
  | .readInto cap, res => ∃ vs b, res = .out vs ∧ vs.length ≤ cap ∧ s.log.Took t b vs
  | .flushFreelist, _ => True

/-- Recording a finished call changes nothing else. -/
theorem ok_trace (h : Inv cfg s g) {op : Op T} {res : Res T} (hd : Done s g t op res) :
    Ok cfg t s g { s with trace := s.trace ++ [(t, op, res)] } g := by
  refine ⟨{ h with hist := { h.hist with
    trace_write := fun e he src hop => ?_
    trace_read := fun e he cap hop => ?_ } }, fun u _ => ?_⟩
  · rcases List.mem_append.mp he with he | he
    · exact h.hist.trace_write e he src hop
    · rw [List.mem_singleton] at he
      subst he
      obtain rfl : op = .writeFrom src := hop
      exact hd
  · rcases List.mem_append.mp he with he | he
    · exact h.hist.trace_read e he cap hop
    · rw [List.mem_singleton] at he
      subst he
      obtain rfl : op = .readInto cap := hop
      exact hd
  · exact { Rely.refl u s g with }

/-! ## Live blocks -/

theorem cons_pos_add (cfg : Config) (k v o : ℕ) : cfg.pos k v 0 + o = cfg.pos k v o := by
  unfold Config.pos
  omega

theorem pos_add (k v o j : ℕ) : cfg.pos k v o + j = cfg.pos k v (o + j) := by
  unfold Config.pos
  omega

/-- The block of a slot of the chain. -/
theorem At.block {k v o : ℕ} {block : Option Addr} (h : At cfg s k block v o) :
    ∃ a, block = some a ∧ s.linked[k]? = some a := by
  have hk := h.2.1
  have hget : s.linked[k]? = some s.linked[k] := List.getElem?_eq_getElem hk
  exact ⟨s.linked[k], h.1.trans hget, hget⟩

/-- A block with a position that is not completed is still in the chain. -/
theorem live_of_not_done (h : Inv cfg s g) {k v o : ℕ}
    (ha : s.linked[k]? = some a) (hv : v < cfg.nv) (ho : o < cfg.ns)
    (hd : g.L.cons (cfg.pos k v o) ≠ .done) : g.owner a = .chain k := by
  rcases h.live k a ha with hown | hcount
  · exact hown
  · exfalso
    apply hd
    apply h.finished k v o hv ho
    rw [hcount v hv]
    simp

/-- A block with a position that is not published is still in the chain. -/
theorem live_of_not_published (h : Inv cfg s g) {k v o : ℕ}
    (ha : s.linked[k]? = some a) (hv : v < cfg.nv) (ho : o < cfg.ns)
    (hp : ∀ x, g.L.prod (cfg.pos k v o) ≠ .published x) : g.owner a = .chain k := by
  apply live_of_not_done h ha hv ho
  intro hd
  obtain ⟨x, hx⟩ := h.ledger.done_published _ hd
  exact hp x hx

/-- Blocks from the producer's on are in the chain while its sentinel is held. -/
theorem live_of_unclaimed (h : Inv cfg s g) (ha : s.linked[k]? = some a)
    (hk : g.L.cpos ≤ k * cfg.cap) : g.owner a = .chain k := by
  apply live_of_not_done h (v := 0) (o := 0) ha cfg.nv_pos cfg.ns_pos
  have hfree : g.L.cons (cfg.pos k 0 0) = .free :=
    (h.ledger.cons_free _).mpr (by unfold Config.pos; omega)
  rw [hfree]
  simp

/-- The content of a block depends on the ledger only through these marks. -/
theorem Content.congr {L L' : Ledger Tid T} {vstat : ℕ → ℕ → VStat} {b : Block T}
    (hpub : ∀ p, (L'.prod p).isPublished = (L.prod p).isPublished)
    (hdone : ∀ p, (L'.cons p).isDone = (L.cons p).isDone)
    (hval : ∀ p x, L'.Stored p x → L.Stored p x)
    (h : Content cfg L vstat k b) : Content cfg L' vstat k b where
  produced := fun v hv => by
    rw [h.produced v hv]
    exact tally_congr fun p _ _ => (hpub p).symm
  consumed := fun v hv => by
    rw [h.consumed v hv]
    exact tally_congr fun p _ _ => (hdone p).symm
  vblocks := h.vblocks
  slots := fun v o x hv ho hx => h.slots v o x hv ho (hval _ x hx)

/-! ## Private blocks -/

theorem held_ne (hu : u ≠ t) : (Own.held t : Own Tid) ≠ .held u := fun hc => by
  injection hc with hc
  exact hu hc.symm

/-- Changing blocks that `t` holds. -/
theorem ok_heap (h : Inv cfg s g) {heap' : Addr → Block T}
    (hh : ∀ a, g.owner a ≠ .held t → heap' a = s.heap a) :
    Ok cfg t s g { s with heap := heap' } g := by
  have hchain : ∀ a k, g.owner a = .chain k → heap' a = s.heap a :=
    fun a k ha => hh a (by rw [ha]; simp)
  have hcache : ∀ a, a ∈ g.cache → heap' a = s.heap a := fun a ha =>
    hh a (by rw [(h.cache_mem a).mpr ha]; simp)
  refine ⟨{ h with
    chain := ?_
    content := fun a k ha => by
      show Content cfg g.L g.vstat k (heap' a)
      rw [hchain a k ha]
      exact h.content a k ha
    cache_path := fun p hp => path_congr (fun a ha => ?_) (h.cache_path p hp)
    cache_clean := fun a ha => by
      show (heap' a).Clean
      rw [hcache a ha]
      exact h.cache_clean a ha
    hist := { h.hist with } }, fun u hu => ?_⟩
  · refine h.chain.congr fun a k ha => ⟨ha, ?_⟩
    show (heap' a).next = (s.heap a).next
    rw [hchain a k ha]
  · show (heap' a).next = (s.heap a).next
    rw [hcache a ha]
  · refine { Rely.refl u s g with held := fun a ha => ⟨ha, hh a ?_⟩ }
    rw [ha]
    simpa using hu

theorem ok_modBlock (h : Inv cfg s g) (ha : g.owner a = .held t)
    (f : Block T → Block T) : Ok cfg t s g (s.modBlock a f) g := by
  apply ok_heap h
  intro b hb
  apply update_of_ne
  rintro rfl
  exact hb ha

/-- Handing addresses around outside the chain and the cache. -/
theorem inv_owner (h : Inv cfg s g) {owner' : Addr → Own Tid} {x : Bool}
    (hchain : ∀ a k, owner' a = .chain k ↔ g.owner a = .chain k)
    (hpool : ∀ a, owner' a = .pooled ↔ g.owner a = .pooled)
    (hfree : ∀ a, update s.allocated b x a = false → owner' a = .free)
    (hused : ∀ a, update s.allocated b x a = true → owner' a ≠ .free) :
    Inv cfg { s with allocated := update s.allocated b x } { g with owner := owner' } :=
  { h with
    chain := h.chain.congr fun a k ha => ⟨(hchain a k).mp ha, rfl⟩
    live := fun k a ha => by
      rcases h.live k a ha with h1 | h1
      · exact Or.inl ((hchain a k).mpr h1)
      · exact Or.inr h1
    freed := hfree
    used := hused
    bounded := by
      obtain ⟨n, hn⟩ := h.bounded
      refine ⟨max n (b + 1), fun a ha => ?_⟩
      have hab : a ≠ b := by
        rintro rfl
        exact absurd (le_of_max_le_right ha) (Nat.not_succ_le_self a)
      exact (update_of_ne hab _ _).trans (hn a (le_of_max_le_left ha))
    content := fun a k ha => h.content a k ((hchain a k).mp ha)
    unretired := fun a k ha => h.unretired a k ((hchain a k).mp ha)
    cache_mem := fun a => (hpool a).trans (h.cache_mem a)
    hist := { h.hist with } }

theorem ok_dealloc (h : Inv cfg s g) (hb : g.owner b = .held t) :
    Ok cfg t s g (s.dealloc b) { g with owner := update g.owner b .free } := by
  have hne : ∀ a, a ≠ b → update g.owner b .free a = g.owner a :=
    fun a ha => update_of_ne ha _ _
  refine ⟨inv_owner h (fun a k => update_owner_iff hb (by simp) a)
    (fun a => update_owner_iff hb (by simp) a) (fun a ha => ?_) (fun a ha => ?_), fun u hu => ?_⟩
  · by_cases hab : a = b
    · rw [hab, update_self]
    · rw [hne a hab]
      apply h.freed
      simpa [update_of_ne hab] using ha
  · have hab : a ≠ b := by
      rintro rfl
      simp at ha
    rw [hne a hab]
    apply h.used
    simpa [update_of_ne hab] using ha
  · exact { Rely.refl u s g with
      held := fun a ha => ⟨(update_owner_iff hb (by simp [hu.symm]) a).mpr ha, rfl⟩
      keeps := fun a ha => (owner_of_update (by simp) ha).2 }

/-- Allocation leaves the other private blocks alone. -/
theorem alloc_held (h : Inv cfg s g) (hb : s.allocated b = false) {u : Tid}
    (ha : g.owner a = .held u) : update g.owner b (.held t) a = .held u ∧
      (s.alloc b).heap a = s.heap a := by
  have hab : a ≠ b := by
    rintro rfl
    simp [h.freed a hb] at ha
  exact ⟨(update_of_ne hab _ _).trans ha, update_of_ne hab _ _⟩

theorem ok_alloc (h : Inv cfg s g) (hb : s.allocated b = false) :
    Ok cfg t s g (s.alloc b) { g with owner := update g.owner b (.held t) } := by
  have hfree := h.freed b hb
  have hne : ∀ a, a ≠ b → update g.owner b (.held t) a = g.owner a :=
    fun a ha => update_of_ne ha _ _
  have hown : Inv cfg { s with allocated := update s.allocated b true }
      { g with owner := update g.owner b (.held t) } := by
    refine inv_owner h (fun a k => update_owner_iff hfree (by simp) a)
      (fun a => update_owner_iff hfree (by simp) a) (fun a ha => ?_) (fun a ha hc => ?_)
    · have hab : a ≠ b := by
        rintro rfl
        simp at ha
      rw [hne a hab]
      apply h.freed
      simpa [update_of_ne hab] using ha
    · obtain ⟨hab, hown⟩ := owner_of_update (by simp) hc
      exact h.used a (by simpa [update_of_ne hab] using ha) hown
  have hok : Ok cfg t _ _ (s.alloc b) { g with owner := update g.owner b (.held t) } :=
    ok_heap hown fun a ha => by
      apply update_of_ne
      rintro rfl
      exact ha (update_self _ _ _)
  exact ⟨hok.inv, fun u hu => { Rely.refl u s g with
    held := fun a ha => alloc_held h hb ha
    keeps := fun a ha => (owner_of_update (held_ne hu) ha).2 }⟩

/-! ## Private lists -/

theorem Owned.sublist {l m : List Addr} (h : Owned t s g m) (hl : l.Sublist m) :
    Owned t s g l :=
  ⟨h.1.sublist hl, fun a ha => h.2 a (hl.subset ha)⟩

/-- Private lists do not see changes elsewhere. -/
theorem Owned.of_eq (h : Owned t s g l) (hown : ∀ a ∈ l, g'.owner a = g.owner a)
    (hheap : ∀ a ∈ l, s'.heap a = s.heap a) : Owned t s' g' l := by
  refine ⟨h.1, fun a ha => ?_⟩
  rw [hown a ha, hheap a ha]
  exact h.2 a ha

theorem Linked.of_eq (h : Linked s l) (hheap : ∀ a ∈ l, s'.heap a = s.heap a) :
    Linked s' l := by
  refine path_congr (fun a ha => ?_) h
  show (s'.heap a).next = (s.heap a).next
  rw [hheap a ha]

/-- A block of the chain is in no private list. -/
theorem Owned.ne_chain (h : Owned t s g l) (ha : g.owner a = .chain k) : ∀ b ∈ l, b ≠ a := by
  rintro b hb rfl
  have := (h.2 b hb).1
  simp [ha] at this

theorem Owned.of_heap (h : Owned t s g l) (hh : ∀ a ∈ l, (s'.heap a).Clean) : Owned t s' g l :=
  ⟨h.1, fun a ha => ⟨(h.2 a ha).1, hh a ha⟩⟩

/-- The first of the private blocks is freed. -/
theorem Owned.dealloc (h : Owned t s g (b :: l)) :
    Owned t (s.dealloc b) { g with owner := update g.owner b .free } l := by
  obtain ⟨hnot, hnd⟩ := List.nodup_cons.mp h.1
  refine ⟨hnd, fun a ha => ?_⟩
  have hab : a ≠ b := by
    rintro rfl
    exact hnot ha
  obtain ⟨h1, h2⟩ := h.2 a (List.mem_cons_of_mem _ ha)
  exact ⟨(update_of_ne hab _ _).trans h1, h2⟩

/-- What `t` keeps without the block it gave away. -/
theorem Keeps.lose {l l' : List Addr} (h : Keeps t g l)
    (hx : x ≠ .held t) (hg : g'.owner = update g.owner a x)
    (hl : ∀ b ∈ l, b ≠ a → b ∈ l') : Keeps t g' l' := by
  intro b hb
  rw [hg] at hb
  obtain ⟨hba, hown⟩ := owner_of_update hx hb
  exact hl b (h b hown) hba

theorem Keeps.link (h : Keeps t g l) {n : ℕ}
    (hg : g'.owner = chainOwner g.owner n l) : Keeps t g' [] := by
  intro b hb
  rw [hg] at hb
  obtain ⟨hbl, hown⟩ := chainOwner_held hb
  exact absurd (h b hown) hbl

theorem modBlock_next (s : Shared T) (a : Addr) (p : Option Addr) :
    (s.modBlock a (·.setNext p)).next = update s.next a p := by
  funext b
  by_cases hb : b = a
  · subst hb
    simp [Shared.next, Shared.modBlock, Block.setNext]
  · simp [Shared.next, Shared.modBlock, update_of_ne hb]

theorem modBlock_setNext_clean {a b : Addr} {p : Option Addr} (h : (s.heap b).Clean) :
    ((s.modBlock a (·.setNext p)).heap b).Clean := by
  by_cases hb : b = a
  · subst hb
    simpa [Shared.modBlock, Block.setNext, Block.Clean] using h
  · simpa [Shared.modBlock, update_of_ne hb] using h

/-- Writing a link keeps private lists owned and clean. -/
theorem Owned.setNext (h : Owned t s g l) (a : Addr) (p : Option Addr) :
    Owned t (s.modBlock a (·.setNext p)) g l :=
  h.of_heap fun b hb => modBlock_setNext_clean (h.2 b hb).2

/-- Writing a link outside a list keeps the list linked. -/
theorem Linked.setNext (h : Linked s l) (ha : a ∉ l)
    (p : Option Addr) : Linked (s.modBlock a (·.setNext p)) l := by
  unfold Linked
  rw [modBlock_next]
  exact path_update ha h p

/-- **`BlockList::add_assign`** joins two private lists, right-hand side first. -/
theorem addAssign_ok (h : Inv cfg s g) {self rhs : List Addr}
    (ho : Owned t s g (rhs ++ self)) (hl : Linked s rhs) (hs : Linked s self) :
    ∃ s', s.addAssign self rhs = (s', rhs ++ self) ∧ Ok cfg t s g s' g ∧
      Linked s' (rhs ++ self) ∧ (∀ l, Owned t s g l → Owned t s' g l) ∧
      (∀ l, (∀ a ∈ l, a ∉ rhs) → Linked s l → Linked s' l) ∧
      ∃ heap', s' = { s with heap := heap' } := by
  unfold Shared.addAssign
  cases hz : rhs.getLast? with
  | none =>
    obtain rfl := List.getLast?_eq_none_iff.mp hz
    exact ⟨s, rfl, Ok.refl h, hs, fun _ hl => hl, fun _ _ hl => hl, s.heap, rfl⟩
  | some z =>
    have hmem := List.mem_of_getLast? hz
    have hown : g.owner z = .held t := (ho.2 z (List.mem_append_left _ hmem)).1
    refine ⟨_, rfl, ok_modBlock h hown _, ?_, fun l hl => hl.setNext z _,
      fun l hd hl => hl.setNext (fun hc => hd z hc hmem) _, _, rfl⟩
    unfold Linked
    rw [modBlock_next]
    exact path_join ho.1 hz hl hs

/-! ## One step of a thread -/

/-- The step of `t` that ends in `r` keeps the proof outline. -/
def StepOk (cfg : Config) (t : Tid) (s : Shared T) (g : Ghost T) (r : Shared T × Pc T) : Prop :=
  ∃ g', Ok cfg t s g r.1 g' ∧ Local cfg t r.1 g' r.2

theorem StepOk.after {r : Shared T × Pc T} (hok : Ok cfg t s g s' g')
    (h : StepOk cfg t s' g' r) : StepOk cfg t s g r := by
  obtain ⟨g'', hok', hl⟩ := h
  exact ⟨g'', hok.trans hok', hl⟩

/-- `t` holds neither head, not the freelist, and owes no publication and no count. -/
structure Reader (t : Tid) (g : Ghost T) : Prop where
  prod : g.pown ≠ some t
  cons : g.cown ≠ some t
  free : g.fown ≠ some t
  idle : g.L.Pending t 0 0
  counts : ∀ k v, g.vstat k v ≠ .full t

/-- Besides, nothing that `t` has claimed is left to complete. -/
structure Unlocked (t : Tid) (g : Ghost T) : Prop extends Reader t g where
  covers : g.L.Covers t 0 0

theorem Local.reader {pc : Pc T} (h : Local cfg t s g pc) (hP : pc.holdsP = false)
    (hC : pc.holdsC = false) (hF : pc.holdsF = false) (hW : pc.writing = false)
    (hV : pc.counts = none) : Reader t g := by
  refine ⟨fun hc => ?_, fun hc => ?_, fun hc => ?_, h.pending hW, fun k v hc => ?_⟩
  · simp [h.holdsP.mp hc] at hP
  · simp [h.holdsC.mp hc] at hC
  · simp [h.holdsF.mp hc] at hF
  · simp [h.counts k v hc] at hV

/-- What a program counter holds and still has to do. -/
def Pc.duties (pc : Pc T) : Bool × Bool × Bool × Bool × Bool × List Addr × Option (ℕ × ℕ) :=
  (pc.holdsP, pc.holdsC, pc.holdsF, pc.writing, pc.fetching, pc.blocks, pc.counts)

theorem Local.unlocked {pc : Pc T} (h : Local cfg t s g pc)
    (hd : pc.duties = (false, false, false, false, false, pc.blocks, none)) : Unlocked t g := by
  simp only [Pc.duties, Prod.mk.injEq] at hd
  obtain ⟨hP, hC, hF, hW, hR, _, hV⟩ := hd
  exact ⟨h.reader hP hC hF hW hV, h.covers hR⟩

theorem Reader.toLocal {pc : Pc T} (h : Reader t g) (hP : pc.holdsP = false)
    (hC : pc.holdsC = false) (hF : pc.holdsF = false)
    (hR : pc.fetching = false → g.L.Covers t 0 0) (hk : Keeps t g pc.blocks)
    (hh : At.Pc cfg t s g pc) : Local cfg t s g pc := by
  refine ⟨?_, ?_, ?_, fun _ => h.idle, hR, fun _ => hk, fun k v hv => absurd hv (h.counts k v), hh⟩
  · simp [hP, h.prod]
  · simp [hC, h.cons]
  · simp [hF, h.free]

theorem Unlocked.toLocal {pc : Pc T} (h : Unlocked t g) (hP : pc.holdsP = false)
    (hC : pc.holdsC = false) (hF : pc.holdsF = false) (hk : Keeps t g pc.blocks)
    (hh : At.Pc cfg t s g pc) : Local cfg t s g pc :=
  h.toReader.toLocal hP hC hF (fun _ => h.covers) hk hh

/-- A step that only changes the locals, and no duty. -/
theorem Local.stays {pc pc' : Pc T} (h : Local cfg t s g pc) (hI : Inv cfg s g)
    (hd : pc'.duties = pc.duties) (hh : At.Pc cfg t s g pc') : StepOk cfg t s g (s, pc') := by
  simp only [Pc.duties, Prod.mk.injEq] at hd
  obtain ⟨hP, hC, hF, hW, hR, hk, hV⟩ := hd
  refine ⟨g, Ok.refl hI, ⟨?_, ?_, ?_, ?_, ?_, ?_, ?_, hh⟩⟩
  · exact hP ▸ h.holdsP
  · exact hC ▸ h.holdsC
  · exact hF ▸ h.holdsF
  · exact hW ▸ h.pending
  · exact hR ▸ h.covers
  · exact hF ▸ hk ▸ h.keeps
  · exact hV ▸ h.counts

theorem ret_ok (h : Inv cfg s g) (hu : Unlocked t g) (hk : Keeps t g []) {op : Op T} {res : Res T}
    (hd : Done s g t op res) : StepOk cfg t s g (ret s t op res) :=
  ⟨g, ok_trace h hd, hu.toLocal rfl rfl rfl hk trivial⟩

end V8
