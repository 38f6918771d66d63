/-
# Reclamation in the v8 queue

A physical block lives in the chain under one token at a time.  `reclamation`
collects what a run guarantees about its lives: each is ended once, by
`FreeList::recycle`, after all of its positions have been filled and emptied;
nobody who obtained the block in that life touches it afterwards; and the
chain, the private lists, the freelist and the freed memory never share a block.

The disjointness is a fact about the ghost ownership map: each of the four
places determines the owner of the blocks in it (`Lies.owner`).
-/
import Ubq.V8.Delivery

namespace V8

variable {T : Type*} {cfg : Config} {t u : Tid} {s s' : Shared T} {g g' : Ghost T}
variable {a : Addr} {k : ℕ} {block : Option Addr} {w : Write T} {r : Read T} {c : Conf T}

/-! ## Accesses to the blocks of the chain -/

/-- The next step of `t` accesses block `a`, which it obtained under token `k`.
A producer in its copy loop stands at position `p + moved` of its reservation;
`advance_producer` walks from its own token on. -/
def Uses (cfg : Config) (s : Shared T) (t : Tid) : Pc T → Addr → ℕ → Prop
  | .wNext w, a, k | .wCopy w _ _, a, k | .wPublish w _, a, k => w.block = some a ∧
      ∃ p, s.lastResv t = some (t, p, w.src) ∧ k = (p + w.moved) / cfg.cap
  | .apFind _ token curr _, a, k => curr = some a ∧ token ≤ k ∧ s.linked[k]? = some a
  | .apLink _ token curr _, a, k => curr = a ∧ token ≤ k ∧ s.linked[k]? = some a
  | .apWalk d, a, k | .apHas d, a, k => d.blk = some a ∧ k = d.token + d.depth
  | .rProduced r, a, k | .rCopy r _, a, k | .rNext r, a, k | .rConsume r _, a, k
  | .rVblocks r _, a, k => r.block = some a ∧ k = r.token
  | .acNext _ newIndex _ blk, a, k => blk = some a ∧ k = newIndex / 2 / cfg.stride
  | _, _, _ => False

/-- The block of the chain that the next step dereferences. -/
def Pc.derefs : Pc T → Option Addr
  | .wNext w | .wCopy w _ _ | .wPublish w _ => w.block
  | .apFind _ _ curr _ => curr
  | .apLink _ _ curr _ => some curr
  | .apWalk d | .apHas d => d.blk
  | .rProduced r | .rCopy r _ | .rNext r | .rConsume r _ | .rVblocks r _ => r.block
  | .acNext _ _ _ blk => blk
  | _ => none

/-- Every dereference is an access to a block that was obtained under some token. -/
theorem uses_of_derefs {pc : Pc T} (hl : Local cfg t s g pc) (ha : pc.derefs = some a) :
    ∃ k, Uses cfg s t pc a k := by
  have hhere := hl.here
  cases pc with
  | wNext w =>
    obtain ⟨_, _, ⟨_, p, hjob, _⟩, _⟩ := hhere
    exact ⟨_, ha, p, hjob.resv, rfl⟩
  | wCopy w next i | wPublish w next =>
    obtain ⟨_, _, _, _, _, _, ⟨p, hjob, _⟩, _⟩ := hhere
    exact ⟨_, ha, p, hjob.resv, rfl⟩
  | apFind w token curr blocks =>
    obtain ⟨⟨rfl, _⟩, j, hj, _, hcurr⟩ := hhere
    exact ⟨j, ha, hj, hcurr.symm.trans ha⟩
  | apLink w token curr blocks =>
    obtain ⟨⟨rfl, hat, _⟩, hlast⟩ := hhere
    have hpk := hat.2.1
    exact ⟨_, Option.some.inj ha, by omega, hlast.trans ha⟩
  | apWalk d | apHas d => exact ⟨_, ha, rfl⟩
  | rProduced r | rNext r => exact ⟨_, ha, rfl⟩
  | rCopy r i => exact ⟨_, ha, rfl⟩
  | rConsume r next | rVblocks r next => exact ⟨_, ha, rfl⟩
  | acNext r newIndex pidx blk => exact ⟨_, ha, rfl⟩
  | _ => cases ha

theorem pos_div_cap {k v o : ℕ} (hv : v < cfg.nv) (ho : o < cfg.ns) :
    cfg.pos k v o / cfg.cap = k := by
  have hlt := cfg.offset_lt_cap hv ho
  unfold Config.pos
  rw [Nat.mul_comm, Nat.mul_add_div cfg.cap_pos, Nat.div_eq_of_lt hlt, Nat.add_zero]

/-- A producer's reservation says under which token it obtained its block. -/
theorem uses_token {a k b : ℕ}
    (hat : At cfg s k block w.vblock w.offset) (hjob : Job t s g w.src a w.moved)
    (hpos : cfg.pos k w.vblock w.offset = a + w.moved)
    (hb : ∃ p, s.lastResv t = some (t, p, w.src) ∧ b = (p + w.moved) / cfg.cap) : b = k := by
  obtain ⟨p, hp, rfl⟩ := hb
  rw [hjob.resv] at hp
  have hpa : a = p := by simpa using hp
  rw [← hpa, ← hpos, pos_div_cap hat.2.2.1 hat.2.2.2]

/-- Block `a` is in its life under token `k`: linked and not recycled since. -/
def InLife (s : Shared T) (a : Addr) (k : ℕ) : Prop := s.linked[k]? = some a ∧ k ∉ s.recycled

section

variable (h : Inv cfg s g)

include h

theorem InLife.owner (hl : InLife s a k) : g.owner a = .chain k :=
  (h.live k a hl.1).resolve_right fun hall => hl.2 ((h.hist.recyc_iff k).mpr hall)

/-- A life lasts while one of its positions is not completed. -/
theorem inLife_of_not_done {k v o : ℕ} (ha : s.linked[k]? = some a)
    (hv : v < cfg.nv) (ho : o < cfg.ns) (hcell : g.L.cons (cfg.pos k v o) ≠ .done) :
    InLife s a k := by
  refine ⟨ha, fun hk => hcell (h.finished k v o hv ho ?_)⟩
  rw [(h.hist.recyc_iff k).mp hk v hv]
  simp

theorem inLife_of_unclaimed (ha : s.linked[k]? = some a)
    (hk : g.L.cpos ≤ k * cfg.cap) : InLife s a k := by
  apply inLife_of_not_done h (v := 0) (o := 0) ha cfg.nv_pos cfg.ns_pos
  rw [(h.ledger.cons_free _).mpr (by unfold Config.pos; omega)]
  simp

/-- The block of a slot that its consumer has not completed. -/
theorem At.inLife {k v o : ℕ}
    (hat : At cfg s k block v o) (ha : block = some a)
    (hcell : g.L.cons (cfg.pos k v o) ≠ .done) : InLife s a k :=
  inLife_of_not_done h (hat.1.symm.trans ha) hat.2.2.1 hat.2.2.2 hcell

/-- The block of a slot that its producer has not published. -/
theorem At.inLife_unpublished {k v o : ℕ}
    (hat : At cfg s k block v o) (ha : block = some a)
    (hcell : ∀ x, g.L.prod (cfg.pos k v o) ≠ .published x) : InLife s a k := by
  apply hat.inLife h ha
  intro hd
  obtain ⟨x, hx⟩ := h.ledger.done_published _ hd
  exact hcell x hx

end

theorem owes_unpublished {p : ℕ} {vs : List T} (hvs : vs ≠ []) (ho : g.L.Owes t p vs) (x : T) :
    g.L.prod p ≠ .published x := by
  obtain ⟨y, ys, rfl⟩ := List.exists_cons_of_ne_nil hvs
  have h0 := ho 0 y rfl
  rw [Nat.add_zero] at h0
  rw [h0]
  simp

section

variable (h : Inv cfg s g)

include h

theorem writing_uses
    (hw : Writing cfg t s g w) (hlt : w.moved < w.src.length) (ha : w.block = some a)
    (hk : ∃ p, s.lastResv t = some (t, p, w.src) ∧ k = (p + w.moved) / cfg.cap) :
    InLife s a k := by
  obtain ⟨_, p, hjob, hseg⟩ := hw
  obtain ⟨k', hat, hpos, howes, _⟩ := hseg hlt
  rw [uses_token hat hjob hpos hk]
  exact hat.inLife_unpublished h ha (owes_unpublished (by simpa using hlt) howes)

theorem filling_uses {next : Option Addr} {i : ℕ}
    (hw : Filling cfg t s g w next i) (ha : w.block = some a)
    (hk : ∃ p, s.lastResv t = some (t, p, w.src) ∧ k = (p + w.moved) / cfg.cap) :
    InLife s a k := by
  obtain ⟨hlt, _, k', hat, ⟨p, hjob, hpos⟩, hcopied, hreserved, _⟩ := hw
  rw [uses_token hat hjob hpos hk]
  apply hat.inLife_unpublished h ha
  intro x hx
  -- the first slot of the segment is still the producer's, filled or not
  have hval : w.src[w.moved + 0]? = some w.src[w.moved] := by simp [hlt]
  rcases Nat.eq_zero_or_pos i with hi | hi
  · have h0 := hreserved 0 _ (by omega) hval
    simp [hx] at h0
  · have h0 := hcopied 0 _ hi hval
    simp [hx] at h0

/-- The blocks from the producer's token on, while it crosses its boundary. -/
theorem advancing_uses {v o : ℕ} {vs : List T}
    (hat : At cfg s g.pk block v o) (hvs : vs ≠ []) (ho : g.L.Owes t (cfg.pos g.pk v o) vs)
    (hk : g.pk ≤ k) (ha : s.linked[k]? = some a) : InLife s a k := by
  rcases Nat.lt_or_eq_of_le hk with hlt | rfl
  · apply inLife_of_unclaimed h ha
    have h1 := h.cpos_pk
    have h2 := token_mul_le cfg hlt
    omega
  · exact hat.inLife_unpublished h (hat.1.trans ha) (owes_unpublished hvs ho)

theorem reading_uses (hr : Reading cfg t s g r)
    (hlt : r.written < r.len) (ha : r.block = some a) : InLife s a r.token := by
  obtain ⟨hat, hholds⟩ := hr.segment hlt
  apply hat.inLife h ha
  have h0 := hholds 0 (by omega)
  rw [Nat.add_zero] at h0
  rw [h0]
  simp

theorem draining_uses {i : ℕ}
    (hd : Draining cfg t s g r i) (ha : r.block = some a) : InLife s a r.token := by
  obtain ⟨_, hlt, _, _, hat, _, _, htaken, hclaimed, _⟩ := hd
  apply hat.inLife h ha
  rcases Nat.eq_zero_or_pos i with hi | hi
  · have h0 := hclaimed 0 (by omega) (by omega)
    rw [Nat.add_zero] at h0
    rw [h0]
    simp
  · have h0 := htaken 0 hi
    rw [Nat.add_zero] at h0
    rw [h0]
    simp

/-- The blocks from the consumer's token on, while it crosses its boundary. -/
theorem locked_uses
    (hl : Locked cfg t s g r) (hown : g.cown = some t) (hk : r.token ≤ k)
    (ha : s.linked[k]? = some a) : InLife s a k := by
  obtain ⟨hck, _, _, _, hat, hholds, _⟩ := hl
  have hcpos := (cpos_locked h hown).2
  have hroom := cfg.offset_lt_cap hat.2.2.1 hat.2.2.2
  rcases Nat.lt_or_eq_of_le hk with hlt | rfl
  · apply inLife_of_unclaimed h ha
    have := token_mul_le cfg hlt
    rw [hcpos, hck]
    omega
  · apply hat.inLife h (hat.1.trans ha)
    have h0 := hholds 0 (by omega)
    rw [Nat.add_zero] at h0
    rw [h0]
    simp

/-- **Every access is to a block in the life in which it was obtained.** -/
theorem uses_inLife {pc : Pc T} (hl : Local cfg t s g pc)
    (hu : Uses cfg s t pc a k) : InLife s a k := by
  have hhere := hl.here
  cases pc with
  | wNext w =>
    obtain ⟨_, _, hw, hlt⟩ := hhere
    exact writing_uses h hw hlt hu.1 hu.2
  | wCopy w next i | wPublish w next => exact filling_uses h hhere.2.2 hu.1 hu.2
  | apFind w token curr blocks | apLink w token curr blocks =>
    obtain ⟨⟨rfl, hat, _, _, hsrc, _, howes, _⟩, _⟩ := hhere
    exact advancing_uses h hat hsrc howes hu.2.1 hu.2.2
  | apWalk d | apHas d =>
    obtain ⟨⟨htok, hat, _, _, hsrc, _, howes, _, _, hblk, _⟩, _⟩ := hhere
    obtain ⟨hd, rfl⟩ := hu
    rw [htok]
    exact advancing_uses h hat hsrc howes (Nat.le_add_right _ _) (hblk.symm.trans hd)
  | rProduced r =>
    obtain ⟨ha, rfl⟩ := hu
    exact reading_uses h hhere.1 hhere.2 ha
  | rCopy r i | rNext r =>
    obtain ⟨ha, rfl⟩ := hu
    exact draining_uses h hhere ha
  | rConsume r next =>
    obtain ⟨ha, rfl⟩ := hu
    exact draining_uses h hhere.1 ha
  | rVblocks r next =>
    obtain ⟨ha, rfl⟩ := hu
    obtain ⟨hat, hfull, _⟩ := hhere
    refine ⟨hat.1.symm.trans ha, fun hk => ?_⟩
    simp [(h.hist.recyc_iff _).mp hk _ hat.2.2.1] at hfull
  | acNext r newIndex pidx blk =>
    obtain ⟨hlock, ⟨n, o, _, _, hidx, ho, _, _, _, _, hblk, _, _, hge, _⟩, _⟩ := hhere
    obtain ⟨ha, rfl⟩ := hu
    have hcap := cfg.cap_lt_stride
    have hpos := cfg.cap_pos
    have hn : newIndex / 2 / cfg.stride = n := by
      rw [hidx]
      exact ridx_div_stride cfg (by omega)
    have hle : r.token ≤ n := token_of_lt cfg (p := r.token * cfg.cap) (le_refl _) (by omega)
    rw [hn]
    exact locked_uses h hlock (hl.holdsC.mpr rfl) hle (hblk.symm.trans ha)
  | _ => exact hu.elim

end

/-! ## The four places of a block -/

/-- Following the links from `p` meets block `a`. -/
def Meets (s : Shared T) (p : Option Addr) (a : Addr) : Prop :=
  ∃ l e, LinkPath s.next p (l ++ [a]) e

/-- The detached freelist chain that `FreeList::take` has not severed yet. -/
def Pc.rest : Pc T → Option Addr
  | .tWalk _ _ rest => rest
  | _ => none

/-- Where a block can be. -/
inductive Place
  | chain
  | own (t : Tid)
  | freelist
  | freed

/-- Block `a` is in the given place: on the chain from `consumer.block`, in a
thread's private lists, on the freelist, or freed. -/
def Lies (c : Conf T) (a : Addr) : Place → Prop
  | .chain => Meets c.sh c.sh.consumerBlock a
  | .own t => a ∈ (c.pc t).blocks ∨ Meets c.sh (c.pc t).rest a
  | .freelist => ∃ p, c.sh.freelist = .ptr p ∧ Meets c.sh p a
  | .freed => c.sh.allocated a = false

/-- The chain from the consumer's token on is alive. -/
theorem inLife_from_consumer (h : Inv cfg c.sh g)
    (hL : ∀ t, Local cfg t c.sh g (c.pc t)) (hk : g.ck ≤ k)
    (ha : c.sh.linked[k]? = some a) : InLife c.sh a k := by
  cases hown : g.cown with
  | none =>
    have hp := h.chead
    unfold ConsHead at hp
    rw [hown] at hp
    obtain ⟨off, f, hoff, _, _, hcpos, _⟩ := hp
    rcases Nat.lt_or_eq_of_le hk with hlt | rfl
    · apply inLife_of_unclaimed h ha
      have := token_mul_le cfg hlt
      omega
    · apply inLife_of_not_done h ha (cfg.vblock_lt hoff) (cfg.offset_lt off)
      rw [cfg.pos_div_mod, (h.ledger.cons_free _).mpr (by omega)]
      simp
  | some t =>
    have hpc := (hL t).holdsC.mp hown
    have hhere := (hL t).here
    have hlock : ∃ r, Locked cfg t c.sh g r := by
      generalize c.pc t = pc at hpc hhere
      cases pc with
      | acLoad r newIndex => exact ⟨r, hhere.1⟩
      | acLoop r newIndex pidx blk => exact ⟨r, hhere.1⟩
      | acNext r newIndex pidx blk => exact ⟨r, hhere.1⟩
      | acBlock r newIndex blk => exact ⟨r, hhere.1⟩
      | acIndex r newIndex => exact ⟨r, hhere.1⟩
      | _ => simp [Pc.holdsC] at hpc
    obtain ⟨r, hr⟩ := hlock
    exact locked_uses h hr hown (by rw [← hr.1]; exact hk) ha

/-- A thread owns its private blocks, and no block occurs in them twice. -/
theorem blocks_owned {pc : Pc T} (hl : Local cfg t s g pc) :
    pc.blocks.Nodup ∧ ∀ a ∈ pc.blocks, g.owner a = .held t := by
  have howned : ∀ l, Owned t s g l → l.Nodup ∧ ∀ a ∈ l, g.owner a = .held t :=
    fun l ho => ⟨ho.1, fun a ha => (ho.2 a ha).1⟩
  have hone : ∀ b, g.owner b = .held t → [b].Nodup ∧ ∀ a ∈ [b], g.owner a = .held t :=
    fun b hb => ⟨List.nodup_singleton b, fun a ha => by rwa [List.mem_singleton.mp ha]⟩
  have hhere := hl.here
  cases pc with
  | wLoop src index block blocks => exact howned blocks hhere.2.2.1
  | wReIndex src blocks => exact howned blocks hhere.2.1
  | wReBlock src index blocks => exact howned blocks hhere.2.2.1
  | wCas src index block blocks => exact howned blocks hhere.2.2.2.2.1
  | wRoot | wRootStore | fault => exact hhere.elim
  | wSeg w | wNext w | wCopy w next i | wPublish w next | wDrop w => exact howned _ hhere.1
  | apFind w token curr blocks | apLink w token curr blocks =>
    obtain ⟨⟨_, _, _, _, _, _, _, _, _, ho, _⟩, _⟩ := hhere
    exact howned blocks ho
  | tLoad ret => exact howned _ (TakeOk.owned hhere)
  | tCas ret head => exact howned _ (TakeOk.owned hhere)
  | tWalk ret taken rest =>
    obtain ⟨_, rem, _, _, ho, _⟩ := hhere
    refine howned _ (ho.sublist ?_)
    exact (List.sublist_append_left taken rem).append (List.Sublist.refl _)
  | aAlloc ret acc n =>
    have hok : TakeOk cfg t s g (.acquire ret acc n) := hhere
    exact howned _ hok.owned
  | fDrop blocks freed => exact howned blocks hhere
  | cReset r next b | cLoad r next b | cLink r next b head | cPush r next b head | cFree r next b =>
    exact hone b hhere.1.1
  | _ => exact ⟨List.nodup_nil, fun a ha => absurd ha (by simp [Pc.blocks])⟩

/-- The owner of the blocks in a place. -/
def Place.Owner (o : Own Tid) : Place → Prop
  | .chain => ∃ k, o = .chain k
  | .own t => o = .held t
  | .freelist => o = .pooled
  | .freed => o = .free

theorem Lies.owner (h : Inv cfg c.sh g) (hL : ∀ t, Local cfg t c.sh g (c.pc t))
    {i : Place} (hl : Lies c a i) : i.Owner (g.owner a) := by
  cases i with
  | chain =>
    obtain ⟨l, e, hpath⟩ := hl
    obtain ⟨j, hj, _, hblk⟩ := h.cblock
    have hlive : ∀ k b, j ≤ k → c.sh.linked[k]? = some b → g.owner b = .chain k :=
      fun k b hk hb => (inLife_from_consumer h hL (hj.trans hk) hb).owner h
    have hto := h.chain.path_from hlive
    rw [← hblk] at hto
    obtain ⟨i, hi⟩ := List.mem_iff_getElem?.mp (path_mem hto hpath)
    rw [List.getElem?_drop] at hi
    exact ⟨j + i, hlive _ a (Nat.le_add_right _ _) hi⟩
  | own t =>
    rcases hl with hmem | ⟨l, e, hpath⟩
    · exact (blocks_owned (hL t)).2 a hmem
    · have hhere := (hL t).here
      generalize c.pc t = pc at hpath hhere
      cases pc with
      | tWalk ret taken rest =>
        obtain ⟨_, rem, hrest, _, ho, _, hlk, _⟩ := hhere
        obtain ⟨m, _, hm⟩ := path_append.mp hlk
        have hrem : LinkPath c.sh.next rest rem none := by
          rwa [hrest, ← path_head hm]
        exact (ho.2 a (by simp [path_mem hrem hpath])).1
      | _ => exact absurd (path_mem (l := []) rfl hpath) (by simp)
  | freelist =>
    obtain ⟨p, hp, l, e, hpath⟩ := hl
    exact (h.cache_mem a).mpr (path_mem (h.cache_path p hp) hpath)
  | freed => exact h.freed a hl

theorem Place.owner_inj {o : Own Tid} {i j : Place} (hi : i.Owner o) (hj : j.Owner o) : i = j := by
  cases i <;> cases j <;> simp_all [Place.Owner]

/-! ## The lives of a block -/

/-- What a configuration guarantees about recycling. -/
structure Reclamation (cfg : Config) (c : Conf T) : Prop where
  /-- No life is ended twice. -/
  once : c.sh.recycled.Nodup
  /-- A linked block was recycled, or it still lives under its token. -/
  life : ∀ k a, c.sh.linked[k]? = some a → k ∈ c.sh.recycled ∨
    (c.sh.allocated a = true ∧ tokenOf c.sh.linked a = k ∧ (c.sh.heap a).consumedVblocks < cfg.nv)
  /-- All positions of a recycled block were filled and emptied. -/
  finished : ∀ k ∈ c.sh.recycled, ∀ p, k * cfg.cap ≤ p → p < k * cfg.cap + cfg.cap →
    ∃ u x, (p, x) ∈ c.sh.copied ∧ (u, p, x) ∈ c.sh.delivered
  /-- Both counters of every virtual block are full when the block is reset. -/
  counters : ∀ t r next b, c.pc t = .cReset r next b →
    ∀ v, v < cfg.nv → (c.sh.heap b).vblock v = ⟨cfg.ns, cfg.ns⟩
  /-- Whoever obtained a block accesses it only before that life is recycled. -/
  access : ∀ t a k, Uses cfg c.sh t (c.pc t) a k → c.sh.linked[k]? = some a ∧
    tokenOf c.sh.linked a = k ∧ k ∉ c.sh.recycled ∧ c.sh.allocated a = true
  /-- And every dereference of a block of the chain is such an access. -/
  obtained : ∀ t a, (c.pc t).derefs = some a → ∃ k, Uses cfg c.sh t (c.pc t) a k
  /-- A thread's private blocks are distinct. -/
  distinct : ∀ t, (c.pc t).blocks.Nodup
  /-- No block is in two places. -/
  apart : ∀ a i j, Lies c a i → Lies c a j → i = j

theorem chain_allocated (h : Inv cfg s g) (ha : g.owner a = .chain k) :
    s.allocated a = true := by
  by_contra hc
  simp [h.freed a (by simpa using hc)] at ha

/-- A block in its life has a virtual block that is not counted. -/
theorem InLife.vblocks_lt (h : Inv cfg s g) (hl : InLife s a k) :
    (s.heap a).consumedVblocks < cfg.nv := by
  rw [(h.content a k (hl.owner h)).vblocks]
  refine Nat.lt_of_le_of_ne (tally_le _ _ _) fun hfull => hl.2 ?_
  rw [h.hist.recyc_iff]
  intro v hv
  exact VStat.isCounted_iff.mp (tally_eq_iff.mp hfull v (Nat.zero_le v) (by omega))

theorem recycled_finished (h : Inv cfg s g) (hk : k ∈ s.recycled) {p : ℕ}
    (hlo : k * cfg.cap ≤ p) (hhi : p < k * cfg.cap + cfg.cap) :
    ∃ u x, (p, x) ∈ s.copied ∧ (u, p, x) ∈ s.delivered := by
  obtain ⟨off, rfl⟩ := Nat.exists_eq_add_of_le hlo
  have hoff : off < cfg.cap := by omega
  have hv := cfg.vblock_lt hoff
  have hdone : g.L.cons (k * cfg.cap + off) = .done := by
    rw [← cfg.pos_div_mod]
    apply h.finished k _ _ hv (cfg.offset_lt off)
    rw [(h.hist.recyc_iff k).mp hk _ hv]
    simp
  obtain ⟨⟨u, p, x⟩, he, rfl⟩ := h.hist.log.deliv_mem _ (Or.inr hdone)
  exact ⟨u, x, h.hist.copied_mem _ _ (Or.inl (h.hist.log.deliv _ he).1), he⟩

/-- **Reclamation is safe under every schedule.** -/
theorem reclamation (hc : (system T cfg).Reachable c) : Reclamation cfg c := by
  obtain ⟨g, hI, hL⟩ := run_ok hc
  refine {
    once := hI.hist.recyc_nodup
    life := fun k a ha => ?_
    finished := fun k hk p hlo hhi => recycled_finished hI hk hlo hhi
    counters := fun t r next b hpc => ?_
    access := fun t a k hu => ?_
    obtained := fun t a ha => uses_of_derefs (hL t) ha
    distinct := fun t => (blocks_owned (hL t)).1
    apart := fun a i j hi hj => Place.owner_inj (hi.owner hI hL) (hj.owner hI hL) }
  · by_cases hk : k ∈ c.sh.recycled
    · exact Or.inl hk
    · have hlife : InLife c.sh a k := ⟨ha, hk⟩
      have hown := hlife.owner hI
      exact Or.inr ⟨chain_allocated hI hown, hI.chain.tokenOf hown, hlife.vblocks_lt hI⟩
  · have hhere := (hL t).here
    rw [hpc] at hhere
    exact hhere.2
  · have hlife := uses_inLife hI (hL t) hu
    have hown := hlife.owner hI
    exact ⟨hlife.1, hI.chain.tokenOf hown, hlife.2, chain_allocated hI hown⟩

/-- Two values through a block of two slots: block `0` is recycled and lies on
the freelist, hence neither on the chain nor in a private list. -/
theorem reclamation_first_block : ∃ c : Conf ℕ, (system ℕ twoSlots).Reachable c ∧
    c.sh.recycled = [0] ∧ Lies c 0 .freelist ∧ Reclamation twoSlots c := by
  obtain ⟨c, hexec, hrec, hfree⟩ : ∃ c, exec twoSlots (calls 0 (.writeFrom [7, 8]) 3 ++
      [(0, .alloc 1)] ++ List.replicate 17 (0, .run) ++ calls 1 (.readInto 2) 23) = some c ∧
      c.sh.recycled = [0] ∧ c.sh.freelist = .ptr (some 0) := ⟨_, rfl, rfl, rfl⟩
  have hc := exec_reachable hexec
  exact ⟨c, hc, hrec, ⟨some 0, hfree, [], _, rfl, rfl⟩, reclamation hc⟩

end V8
