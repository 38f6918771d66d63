/-
# `push_batch` run alone

What a call of `push_batch` does to memory when nobody disturbs it.  The chain from
`phead` on is the `spine`, the blocks that the call has kept ready are private
(`Mem`).  `AtBoundary` is the invariant of the loop that crosses the end of a block,
`OnRange` that of the loop over the reserved slots.
-/
import Ubq.Mpmc.Arithmetic

namespace Mpmc

open Function

variable {T : Type*} {cfg : Config} {t : Tid} {s s' : Shared T} {spine blocks : List Addr}
variable {p : Push T} {phead : Head} {w : PushWalk T} {f : Fill T} {a : Addr} {e i j : ℕ}

/-! ## Memory -/

/-- The blocks from `phead.block` on, and private ones, are distinct null-terminated
chains apart from the pool. -/
structure Mem (s : Shared T) (spine blocks : List Addr) : Prop where
  nodup : (spine ++ blocks).Nodup
  path : Linked s spine
  priv : Linked s blocks
  allocated : ∀ a ∈ spine ++ blocks, s.arena.allocated a = true
  pool : ∀ a, s.pool = some a →
    a ∉ spine ++ blocks ∧ s.next a = none ∧ s.arena.allocated a = true

/-- The head stands in the first block of the spine. -/
structure Open (cfg : Config) (spine : List Addr) (phead : Head) : Prop where
  block : phead.block = spine.head?
  ne : spine ≠ []
  index : phead.index < cfg.bl
  hint : phead.hasNext = true → 2 ≤ spine.length

/-- The pool has been emptied. -/
theorem Mem.no_pool (h : Mem s spine blocks) : Mem { s with pool := none } spine blocks :=
  { h with pool := nofun }

/-- `give` changes the last block of the first chain, -/
theorem give_heap {self other : List Addr} {a : Addr} (ha : a ∉ self) :
    (s.give self other).1.heap a = s.heap a := by
  unfold Shared.give
  split
  · rename_i z b hz _
    apply update_of_ne
    rintro rfl
    exact ha (List.mem_of_getLast? hz)
  · rfl

/-- and nothing but blocks. -/
theorem give_rest (s : Shared T) (self other : List Addr) :
    ∃ heap, (s.give self other) = ({ s with heap := heap }, self ++ other) := by
  unfold Shared.give
  split
  · exact ⟨_, rfl⟩
  · exact ⟨s.heap, rfl⟩

/-- A chain is read off its blocks. -/
theorem Linked.congr {l : List Addr} (h : Linked s l) (ha : ∀ a ∈ l, s'.heap a = s.heap a) :
    Linked s' l := by
  apply path_congr _ h
  intro a hal
  show (s'.heap a).next = (s.heap a).next
  rw [ha a hal]

/-- Private blocks grow by a chain that is apart from everything else. -/
theorem Mem.give (h : Mem s spine blocks) {other : List Addr} (hl : Linked s other)
    (hnd : other.Nodup) (hnew : ∀ a ∈ other, a ∉ spine ++ blocks)
    (halloc : ∀ a ∈ other, s.arena.allocated a = true)
    (hpool : ∀ a ∈ other, s.pool ≠ some a) :
    Mem (s.give blocks other).1 spine (blocks ++ other) := by
  obtain ⟨hspine, hblocks, hdisj⟩ := List.nodup_append'.mp h.nodup
  have hnd' : (blocks ++ other).Nodup := List.nodup_append'.mpr
    ⟨hblocks, hnd, fun a ha hc => hnew a hc (List.mem_append_right _ ha)⟩
  have hlinked := give_linked hnd' h.priv hl
  have hheap : ∀ a, a ∉ blocks → (s.give blocks other).1.heap a = s.heap a := fun a => give_heap
  obtain ⟨heap, heq⟩ := give_rest s blocks other
  rw [heq] at hlinked hheap ⊢
  refine ⟨?_, h.path.congr fun a ha => hheap a fun hc => hdisj ha hc, hlinked, fun a ha => ?_,
    fun a ha => ?_⟩
  · rw [← List.append_assoc]
    exact List.nodup_append'.mpr ⟨h.nodup, hnd, fun a ha hc => hnew a hc ha⟩
  · rw [← List.append_assoc, List.mem_append] at ha
    exact ha.elim (h.allocated a) (halloc a)
  · obtain ⟨hnot, hnext, hal⟩ := h.pool a ha
    refine ⟨fun hc => ?_, ?_, hal⟩
    · rw [← List.append_assoc, List.mem_append] at hc
      exact hc.elim hnot fun hc => hpool a hc ha
    · show (heap a).next = none
      have hb : a ∉ blocks := fun hc => hnot (List.mem_append_right _ hc)
      have := hheap a hb
      rwa [show heap a = s.heap a from this]

/-- `BlockChain::new` allocates its blocks. -/
theorem newChain_allocated (s : Shared T) (as : List Addr) (a : Addr) :
    (s.newChain as).arena.allocated a = if a ∈ as then true else s.arena.allocated a := by
  unfold Shared.newChain
  split <;> rfl

/-- A chain at fresh addresses, apart from everything. -/
theorem Mem.newChain (h : Mem s spine blocks) {as : List Addr} (hne : as ≠ []) (hnd : as.Nodup)
    (hfree : ∀ a ∈ as, s.arena.allocated a = false) :
    Mem (s.newChain as) spine blocks ∧ ∀ a ∈ as, a ∉ spine ++ blocks := by
  have hspec := newChain_spec s hne hnd
  have hnot : ∀ a, s.arena.allocated a = true → a ∉ as := fun a ha hc => by
    simp [hfree a hc] at ha
  have hkeep : ∀ a ∈ spine ++ blocks, (s.newChain as).heap a = s.heap a := fun a ha =>
    hspec.old a (hnot a (h.allocated a ha))
  obtain ⟨heap, arena, hrest⟩ := hspec.rest
  have hpool : (s.newChain as).pool = s.pool := by rw [hrest]
  refine ⟨⟨h.nodup, h.path.congr fun a ha => hkeep a (List.mem_append_left _ ha),
    h.priv.congr fun a ha => hkeep a (List.mem_append_right _ ha), fun a ha => ?_, fun a ha => ?_⟩,
    fun a ha hc => hnot a (h.allocated a hc) ha⟩
  · rw [newChain_allocated, h.allocated a ha]
    simp
  · rw [hpool] at ha
    obtain ⟨hmem, hnext, hal⟩ := h.pool a ha
    refine ⟨hmem, ?_, ?_⟩
    · show ((s.newChain as).heap a).next = none
      rwa [hspec.old a (hnot a hal)]
    · rw [newChain_allocated, hal]
      simp

/-- The spare block goes behind the private ones. -/
theorem Mem.swap (h : Mem s spine blocks) {a : Addr} (ha : s.pool = some a) :
    Mem ({ s with pool := none }.give blocks [a]).1 spine (blocks ++ [a]) := by
  obtain ⟨hnot, hnext, hal⟩ := h.pool a ha
  have hlink : Linked { s with pool := none } [a] := ⟨rfl, hnext⟩
  apply h.no_pool.give hlink (List.nodup_singleton a)
  · intro b hb
    rwa [List.mem_singleton.mp hb]
  · intro b hb
    rwa [List.mem_singleton.mp hb]
  · intro b _
    simp

/-- New blocks go behind the private ones. -/
theorem Mem.grow (h : Mem s spine blocks) {as : List Addr} (hne : as ≠ []) (hnd : as.Nodup)
    (hfree : ∀ a ∈ as, s.arena.allocated a = false) :
    Mem ((s.newChain as).give blocks as).1 spine (blocks ++ as) := by
  have hspec := newChain_spec s hne hnd
  obtain ⟨hmem, hnew⟩ := h.newChain hne hnd hfree
  apply hmem.give hspec.path hnd hnew
  · intro a ha
    rw [newChain_allocated, if_pos ha]
  · intro a ha hc
    obtain ⟨_, _, hrest⟩ := hspec.rest
    have hpool : (s.newChain as).pool = s.pool := by rw [hrest]
    rw [hpool] at hc
    have := (h.pool a hc).2.2
    simp [hfree a ha] at this

/-- The private blocks go behind the last block of the chain. -/
theorem Mem.link (h : Mem s spine blocks) {a : Addr} {j : ℕ} (hget : spine[j]? = some a)
    (hlast : j + 1 = spine.length) :
    Mem (s.modBlock a (·.setNext blocks.head?)) (spine ++ blocks) [] := by
  have hmem : a ∈ spine := List.mem_of_getElem? hget
  have hz : spine.getLast? = some a := by
    rw [List.getLast?_eq_getElem?, ← hget, ← hlast, Nat.add_sub_cancel]
  refine ⟨?_, ?_, rfl, ?_, ?_⟩
  · rw [List.append_nil]
    exact h.nodup
  · unfold Linked
    rw [modBlock_next]
    exact path_join h.nodup hz h.path h.priv
  · rw [List.append_nil]
    exact h.allocated
  · rw [List.append_nil]
    intro b hb
    obtain ⟨hnb, hnext, hal⟩ := h.pool b hb
    refine ⟨hnb, ?_, hal⟩
    rw [modBlock_next, update_of_ne]
    · exact hnext
    · rintro rfl
      exact hnb (List.mem_append_left _ hmem)

/-- What was provisioned reaches beyond the range. -/
theorem Open.room (h : Open cfg spine phead)
    (hneed : pushNeed cfg p phead ≤ p.blocks.length * cfg.bl) :
    phead.index + p.items.length < (spine.length + p.blocks.length) * cfg.bl := by
  have hidx := h.index
  have hspine : 0 < spine.length := List.length_pos_of_ne_nil h.ne
  have hbl := Nat.mul_le_mul_right cfg.bl hspine
  rw [Nat.add_mul]
  unfold pushNeed at hneed
  split at hneed
  · rename_i hf
    have := Nat.mul_le_mul_right cfg.bl (h.hint hf)
    omega
  · omega

/-! ## The transition loop -/

/-- The transition loop stands at block `j` of the chain; behind the range comes the
position `e` of the chain, and the chain with the private blocks reaches beyond it. -/
structure AtBoundary (cfg : Config) (s : Shared T) (w : PushWalk T) (spine : List Addr)
    (e j : ℕ) : Prop where
  mem : Mem s spine w.root
  block : w.block = spine[j]?
  lt : j < spine.length
  index : w.index < cfg.bl
  rest : j * cfg.bl + (w.index + w.remaining) = e
  room : e < (spine.length + w.root.length) * cfg.bl

/-- The successor of a block that is not the last one is there. -/
theorem AtBoundary.next (h : AtBoundary cfg s w spine e j) :
    step cfg t .run s (.pNext w) =
      some (s, if j + 1 < spine.length then walkOn cfg w spine[j + 1]? else .pLink w) := by
  obtain ⟨a, hget⟩ : ∃ a, spine[j]? = some a := ⟨_, List.getElem?_eq_getElem h.lt⟩
  have hnext : (s.heap a).next = spine[j + 1]? := path_next h.mem.path hget
  simp only [step, stepWith, deref, h.block, hget, hnext]
  split
  · rename_i hnone
    rw [if_neg (by have := List.getElem?_eq_none_iff.mp hnone; omega)]
  · rename_i n hsome
    rw [if_pos (List.getElem?_eq_some_iff.mp hsome).1, hsome]

/-- With the successor known the loop stops or goes on to it. -/
theorem AtBoundary.on (h : AtBoundary cfg s w spine e j)
    (hlt : cfg.bl ≤ w.index + w.remaining → j + 1 < spine.length) :
    (w.index + w.remaining < cfg.bl ∧ walkOn cfg w spine[j + 1]? = .pStore w spine[j + 1]?) ∨
    ∃ w', walkOn cfg w spine[j + 1]? = .pNext w' ∧ AtBoundary cfg s w' spine e (j + 1) ∧
      w'.p = w.p ∧ w'.phead = w.phead ∧ w'.root = w.root := by
  have hidx := h.index
  have hrest := h.rest
  unfold walkOn
  split
  · exact .inl ⟨by omega, rfl⟩
  · refine .inr ⟨_, rfl, ⟨h.mem, rfl, hlt (by omega), cfg.bl_pos, ?_, h.room⟩, rfl, rfl, rfl⟩
    show (j + 1) * cfg.bl + (0 + (w.remaining - (cfg.bl - w.index))) = e
    rw [Nat.succ_mul]
    omega

/-- The last block of the chain gets the private blocks as its successors. -/
theorem AtBoundary.link (h : AtBoundary cfg s w spine e j) (hlast : j + 1 = spine.length) :
    ∃ a, spine[j]? = some a ∧
      step cfg t .run s (.pLink w) =
        some ({ s.modBlock a (·.setNext w.root.head?) with linked := s.linked ++ w.root },
          walkOn cfg { w with root := [] } (spine ++ w.root)[j + 1]?) ∧
      AtBoundary cfg { s.modBlock a (·.setNext w.root.head?) with linked := s.linked ++ w.root }
        { w with root := [] } (spine ++ w.root) e j := by
  obtain ⟨a, hget⟩ : ∃ a, spine[j]? = some a := ⟨_, List.getElem?_eq_getElem h.lt⟩
  have hhead : (spine ++ w.root)[j + 1]? = w.root.head? := by
    rw [List.getElem?_append_right (by omega), show j + 1 - spine.length = 0 by omega,
      List.head?_eq_getElem?]
  have hmem := h.mem.link hget hlast
  refine ⟨a, hget, ?_, { hmem with }, ?_, ?_, h.index, h.rest, ?_⟩
  · simp only [step, stepWith, deref, h.block, hget, hhead]
  · rw [List.getElem?_append_left h.lt]
    exact h.block
  · rw [List.length_append]
    exact Nat.lt_of_lt_of_le h.lt (Nat.le_add_right _ _)
  · rw [List.length_append]
    exact h.room

/-- With no private block left, a range that ends in the chain does not leave it. -/
theorem AtBoundary.stays (h : AtBoundary cfg s w spine e j) (hroot : w.root = [])
    (hge : cfg.bl ≤ w.index + w.remaining) : j + 1 < spine.length := by
  have hroom := h.room
  have hrest := h.rest
  rw [hroot, List.length_nil, Nat.add_zero] at hroom
  by_contra hc
  have hmul := Nat.mul_le_mul_right cfg.bl (Nat.le_of_not_lt hc)
  rw [Nat.succ_mul] at hmul
  omega

/-! ## The slot loop -/

/-- The slot loop is to write the items from `f.done` on to the slots from position
`i` of the chain on. -/
structure OnRange (cfg : Config) (s : Shared T) (f : Fill T) (spine : List Addr) (i : ℕ) :
    Prop where
  path : Linked s spine
  block : f.block = spine[(i + f.done) / cfg.bl]?
  index : f.index = (i + f.done) % cfg.bl
  le : f.done ≤ f.p.items.length
  room : i + f.p.items.length < spine.length * cfg.bl

/-- The block of the next slot is there. -/
theorem OnRange.get (h : OnRange cfg s f spine i) :
    ∃ a, spine[(i + f.done) / cfg.bl]? = some a := by
  have hroom := h.room
  have hle := h.le
  refine ⟨_, List.getElem?_eq_getElem ?_⟩
  rw [Nat.div_lt_iff_lt_mul cfg.bl_pos]
  omega

/-- After a slot the loop stands at the next one. -/
theorem OnRange.advance (h : OnRange cfg s f spine i) {next : Option Addr}
    (hnext : f.index + 1 = cfg.bl → next = spine[(i + f.done) / cfg.bl + 1]?) :
    (f.advance cfg next).p = f.p ∧ (f.advance cfg next).done = f.done + 1 ∧
    (f.advance cfg next).block = spine[(i + (f.done + 1)) / cfg.bl]? ∧
    (f.advance cfg next).index = (i + (f.done + 1)) % cfg.bl := by
  have hpos := cfg.bl_pos
  have hdm := Nat.div_add_mod (i + f.done) cfg.bl
  have hmod := Nat.mod_lt (i + f.done) hpos
  have hidx := h.index
  unfold Fill.advance
  split
  · -- the end of a block
    rename_i hend
    obtain ⟨hdiv, hmod⟩ : (i + (f.done + 1)) / cfg.bl = (i + f.done) / cfg.bl + 1 ∧
        (i + (f.done + 1)) % cfg.bl = 0 := by
      rw [Nat.div_mod_unique hpos, Nat.mul_add, Nat.mul_one]
      omega
    exact ⟨rfl, rfl, by rw [hdiv]; exact hnext hend, hmod.symm⟩
  · obtain ⟨hdiv, hmod⟩ : (i + (f.done + 1)) / cfg.bl = (i + f.done) / cfg.bl ∧
        (i + (f.done + 1)) % cfg.bl = f.index + 1 := by
      rw [Nat.div_mod_unique hpos]
      omega
    exact ⟨rfl, rfl, by rw [hdiv]; exact h.block, hmod.symm⟩

/-- A write to a slot leaves every chain alone. -/
theorem Linked.setSlot {l : List Addr} (h : Linked s l) (k : ℕ) (x : Block T → Slot T) :
    Linked (s.modBlock a fun b => b.setSlot k (x b)) l := by
  apply path_congr _ h
  intro b _
  show (update s.heap a _ b).next = (s.heap b).next
  by_cases hba : b = a
  · subst hba
    rw [update_self]
    rfl
  · rw [update_of_ne hba]

end Mpmc
