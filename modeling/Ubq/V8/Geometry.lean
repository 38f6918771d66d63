/-
# Accepted geometries and the packed index

`Geometry::new` decides which block dimensions a queue may have.  It bounds the
slots of a block by half of a word, since an index is shifted by its flag bit, and
it bounds the bytes of a block through `core::alloc::Layout`.  The running index,
however, advances by a stride that counts the sentinel region too, and a
zero-sized element takes no bytes at all.

`Geometry.new` is the source's function over a target (the width of `usize` and the
layouts of the two headers) and the layout of an element.  `packed` lists the
packed indices that a step of the queue computes and `product` the slot count that
`write_from` multiplies out; both are read off the machine, whose `usize` is `ℕ`.

An accepted geometry whose second block does not fit the index is one of a
zero-sized type with half a word of slots: the first index of its second block
encodes to that of the last slot of its first block.  The indices of the first two
blocks fit, and they differ, exactly if there is room for the second block:
`(2 * nv + 1) * ns ≤ usize::MAX >> 1`.
-/
import Ubq.V8.Delivery
import Mathlib.Tactic.Ring

namespace V8

open Interleave

/-! ## Layouts -/

/-- `core::alloc::Layout`. -/
structure Layout where
  size : ℕ
  align : ℕ
  deriving DecidableEq

/-- What the target fixes: the width of `usize`, and the layouts of a `VBlock` and
of a `Block` header. -/
structure Target where
  bits : ℕ
  vblock : Layout
  block : Layout

namespace Target

variable (m : Target)

/-- `usize::MAX`. -/
def usizeMax : ℕ := 2 ^ m.bits - 1

/-- The largest size of a layout: rounded up to `align` it does not exceed
`isize::MAX`. -/
def maxSizeFor (align : ℕ) : ℕ := m.usizeMax / 2 + 1 - align

/-- A flag bit on top of half a word still fits. -/
theorem half_lt (h : 0 < m.usizeMax) : 2 * (m.usizeMax / 2) + 1 < 2 ^ m.bits := by
  obtain ⟨bits, _, _⟩ := m
  unfold usizeMax at h ⊢
  cases bits with
  | zero => cases h
  | succ b =>
    have := Nat.two_pow_pos b
    rw [pow_succ]
    omega

end Target

namespace Layout

variable (m : Target)

/-- `size` rounded up to a multiple of `align`. -/
def roundUp (size align : ℕ) : ℕ := divCeil size align * align

/-- `Layout::from_size_align`, for an alignment that is a power of two. -/
def fromSizeAlign (size align : ℕ) : Option Layout :=
  if size ≤ m.maxSizeFor align then some ⟨size, align⟩ else none

/-- `Layout::array`. -/
def array (elem : Layout) (n : ℕ) : Option Layout :=
  if elem.size ≠ 0 ∧ m.maxSizeFor elem.align / elem.size < n then none
  else some ⟨elem.size * n, elem.align⟩

/-- `Layout::extend`: the layout of `self` followed by `next`, and where `next` starts. -/
def extend (self next : Layout) : Option (Layout × ℕ) :=
  let offset := roundUp self.size next.align
  (fromSizeAlign m (offset + next.size) (max self.align next.align)).map (·, offset)

/-- `Layout::pad_to_align`. -/
def padToAlign (self : Layout) : Layout := ⟨roundUp self.size self.align, self.align⟩

end Layout

/-! ## `Geometry::new` -/

/-- The `Config` a caller passes. -/
structure Dims where
  slotsPerVblock : ℕ
  vblocksPerBlock : ℕ

/-- Why `Geometry::new` rejects a `Config`. -/
inductive ConfigError
  | zeroCapacity
  | layoutOverflow
  deriving DecidableEq

/-- The dimensions of a block and where its parts lie. -/
structure Geometry where
  config : Config
  capacity : ℕ
  layout : Layout
  vblocksOffset : ℕ
  vblockStride : ℕ
  slotsOffset : ℕ

/-- `usize::checked_mul`. -/
def checkedMul (m : Target) (a b : ℕ) : Option ℕ :=
  if a * b ≤ m.usizeMax then some (a * b) else none

/-- `Geometry::new` for elements of layout `elem`. -/
def Geometry.new (m : Target) (elem : Layout) (config : Dims) : Except ConfigError Geometry :=
  if h : config.slotsPerVblock = 0 ∨ config.vblocksPerBlock = 0 then .error .zeroCapacity
  else
    let accepted : Option Geometry := do
      let capacity ← (checkedMul m config.slotsPerVblock config.vblocksPerBlock).filter
        (· ≤ m.usizeMax / 2)
      let slots ← Layout.array m elem config.slotsPerVblock
      let (vblock, slotsOffset) ← m.vblock.extend m slots
      let vblock := vblock.padToAlign
      let vblocksSize ← checkedMul m vblock.size config.vblocksPerBlock
      let vblocks ← Layout.fromSizeAlign m vblocksSize vblock.align
      let (layout, vblocksOffset) ← m.block.extend m vblocks
      return {
        config := ⟨config.slotsPerVblock, config.vblocksPerBlock, by omega, by omega⟩
        capacity := capacity
        layout := layout.padToAlign
        vblocksOffset := vblocksOffset
        vblockStride := vblock.size
        slotsOffset := slotsOffset }
    match accepted with
    | some geometry => .ok geometry
    | none => .error .layoutOverflow

/-- A checked product is exact. -/
theorem checkedMul_eq_some {m : Target} {a b n : ℕ} (h : checkedMul m a b = some n) :
    n = a * b ∧ a * b ≤ m.usizeMax := by
  unfold checkedMul at h
  split at h
  · exact ⟨(Option.some.inj h).symm, by assumption⟩
  · cases h

/-- What acceptance says about the dimensions. -/
theorem Geometry.new_ok {m : Target} {elem : Layout} {config : Dims} {geo : Geometry}
    (h : Geometry.new m elem config = .ok geo) :
    geo.config.ns = config.slotsPerVblock ∧ geo.config.nv = config.vblocksPerBlock ∧
    geo.capacity = geo.config.cap ∧ geo.config.cap ≤ m.usizeMax / 2 := by
  unfold Geometry.new at h
  split at h
  · cases h
  · dsimp only at h
    split at h
    · rename_i g hacc
      obtain rfl := Except.ok.inj h
      simp only [Option.bind_eq_bind, Option.bind_eq_some_iff, Option.pure_def,
        Option.some.injEq, Option.filter_eq_some_iff] at hacc
      obtain ⟨cap, ⟨hmul, hcap⟩, slots, _, ⟨vb, off⟩, _, size, _, vbs, _, ⟨lay, voff⟩, _, rfl⟩ :=
        hacc
      obtain ⟨rfl, _⟩ := checkedMul_eq_some hmul
      refine ⟨rfl, rfl, Nat.mul_comm _ _, ?_⟩
      rw [decide_eq_true_iff] at hcap
      show config.vblocksPerBlock * config.slotsPerVblock ≤ _
      rwa [Nat.mul_comm]
    · cases h

/-! ## The indices and products of a step -/

section Machine

variable {T : Type*} {cfg : Config} {t : Tid} {s : Shared T} {g : Ghost T}
variable {pc : Pc T} {n : ℕ} {ret : TakeRet T}

/-- The index behind a reservation of `len` slots from `index` on. -/
def reserveFrom (cfg : Config) (index len : ℕ) : ℕ :=
  let (token, vblock, offset) := decodeIndex (index / 2) cfg.ns cfg.nv
  reserveIndex cfg token vblock offset len (index % 2)

/-- The index that the walk of `advance_consumer` has come to. -/
def Pc.found : Pc T → List ℕ
  | .acBlock _ newIndex _ | .acLoop _ newIndex _ _ => [newIndex]
  | _ => []

/-- The packed indices that the next step of a thread computes. -/
def packed (cfg : Config) (s : Shared T) : Pc T → List ℕ
  | .wCas src index _ _ => [reserveFrom cfg index src.length]
  | .apIndex a hasNext => [2 * (cfg.stride * (a.token + a.depth) + a.off + a.rem) + hasNext]
  | .rLoop cap index _ => [reserveFrom cfg index cap]
  | .rPidx cap index _ =>
    [clampIndex cfg (reserveFrom cfg index cap) (decodeIndex (index / 2) cfg.ns cfg.nv).1
      (s.producerIndex / 2)]
  | .acLoop r newIndex pidx blk =>
    (advanceLoop cfg r newIndex pidx blk : Pc T).found
  | .acNext _ newIndex _ _ => [2 * (newIndex / 2 + cfg.ns) + 1]
  | _ => []

/-- The slots `write_from` counts before it provisions more blocks. -/
def product (cfg : Config) : Pc T → Option ℕ
  | .wLoop _ index block blocks =>
    if isSentinel cfg (index / 2) || block.isNone then none
    else some (cfg.cap * (blocks.length + index % 2 + 1))
  | .wRootStore _ index _ blocks => some (cfg.cap * (blocks.length + index % 2 + 1))
  | _ => none

/-- A packed index of a slot or of a sentinel. -/
def IsWord (cfg : Config) (x : ℕ) : Prop :=
  ∃ k off f, x = cfg.word k off f ∧ off ≤ cfg.cap ∧ f < 2

/-- A reservation keeps the block and the flag of its index. -/
theorem reserveFrom_eq (cfg : Config) (index len : ℕ) : ∃ off, off ≤ cfg.cap ∧
    reserveFrom cfg index len = cfg.word (index / 2 / cfg.ns / (cfg.nv + 1)) off (index % 2) :=
  ⟨_, Nat.min_le_right _ _, rfl⟩

/-- So it ends at a slot or at the sentinel. -/
theorem isWord_reserveFrom (index len : ℕ) : IsWord cfg (reserveFrom cfg index len) := by
  obtain ⟨off, hoff, heq⟩ := reserveFrom_eq cfg index len
  exact ⟨_, off, _, heq, hoff, Nat.mod_lt _ (by decide)⟩

/-- The clamp to the producer keeps the block and does not raise the offset. -/
theorem isWord_clampIndex {k off f : ℕ} (hoff : off ≤ cfg.cap) (hf : f < 2) (pidx : ℕ) :
    IsWord cfg (clampIndex cfg (cfg.word k off f) k pidx) := by
  unfold clampIndex
  split
  · rename_i hk
    obtain ⟨hsplit, hlt⟩ := ridx_split cfg pidx
    rw [← hk] at hsplit
    refine ⟨k, min off (pidx % cfg.stride), 0, ?_, (Nat.min_le_left _ _).trans hoff, by decide⟩
    unfold Config.word
    omega
  · refine ⟨k, off, 1, ?_, hoff, by decide⟩
    rw [word_div_two cfg hf]
    rfl

/-- The walk of `advance_consumer` comes to a slot or to a sentinel. -/
theorem isWord_advanceLoop {r : Read T} {newIndex pidx : ℕ} {blk : Option Addr}
    (h : Scanning cfg s g r newIndex pidx blk) :
    ∀ x ∈ packed cfg s (.acLoop r newIndex pidx blk), IsWord cfg x := by
  obtain ⟨n, o, pt, po, hn, ho, hp, hpo, _, _, _, hlt, _⟩ := h
  have hcap := cfg.cap_lt_stride
  intro x hx
  simp only [packed, advanceLoop] at hx
  rw [hn, hp, ridx_div cfg (by omega), ridx_div cfg (by omega)] at hx
  split at hx
  · rename_i hnp
    subst hnp
    rw [Pc.found, List.mem_singleton] at hx
    obtain rfl : o = 0 := by omega
    refine ⟨n, min (r.cap - r.len) po, 0, ?_, by omega, by decide⟩
    unfold Config.word
    omega
  · split at hx
    · simp [Pc.found] at hx
    · rename_i hsent
      rw [isSentinel_iff cfg (by omega)] at hsent
      obtain rfl : o = 0 := by omega
      have hword : ∀ count, count ≤ cfg.cap →
          IsWord cfg (2 * (cfg.stride * n + 0 + count) + 1) := fun count hc =>
        ⟨n, count, 1, by unfold Config.word; omega, hc, by decide⟩
      split at hx <;> rw [Pc.found, List.mem_singleton] at hx <;> subst hx <;>
        exact hword _ (Nat.min_le_right _ _)

/-- Every packed index is one of a slot or of a sentinel. -/
theorem isWord_packed (hl : Local cfg t s g pc) : ∀ x ∈ packed cfg s pc, IsWord cfg x := by
  have hh := hl.here
  intro x hx
  cases pc with
  | wCas src index block blocks =>
    rw [packed, List.mem_singleton] at hx
    exact hx ▸ isWord_reserveFrom _ _
  | rLoop cap index block =>
    rw [packed, List.mem_singleton] at hx
    exact hx ▸ isWord_reserveFrom _ _
  | rPidx cap index block =>
    rw [packed, List.mem_singleton] at hx
    obtain ⟨off, hoff, heq⟩ := reserveFrom_eq cfg index cap
    rw [heq] at hx
    exact hx ▸ isWord_clampIndex hoff (Nat.mod_lt _ (by decide)) _
  | apIndex a hasNext =>
    obtain ⟨_, _, hoff, hf, _⟩ := hh
    rw [packed, List.mem_singleton] at hx
    refine ⟨a.token + a.depth, a.off + a.rem, hasNext, ?_, hoff.le, hf⟩
    rw [hx]
    unfold Config.word
    omega
  | acLoop r newIndex pidx blk => exact isWord_advanceLoop hh.2 x hx
  | acNext r newIndex pidx blk =>
    obtain ⟨_, ⟨n, o, pt, po, hn, ho, _⟩, hsent⟩ := hh
    have hcap := cfg.cap_lt_stride
    have hpos := cfg.cap_pos
    rw [hn, isSentinel_iff cfg (by omega)] at hsent
    obtain rfl : o = cfg.cap := by omega
    rw [packed, List.mem_singleton, hn] at hx
    refine ⟨n + 1, 0, 1, ?_, Nat.zero_le _, by decide⟩
    have hstride := cfg.stride_eq
    have hsucc : cfg.stride * (n + 1) = cfg.stride * n + cfg.stride := by ring
    unfold Config.word
    omega
  | _ => simp [packed] at hx

/-! ### The blocks a producer provisions -/

/-- The blocks that a batch of `len` values has in hand: as many as it fills or, once it
has provisioned more, as many as it needs. -/
def InHand (cfg : Config) (len b : ℕ) : Prop := b = len / cfg.cap ∨ b = divCeil len cfg.cap

/-- A caller of `acquire` will have the right number of blocks with `n` more. -/
def AcqRet.Stocked (cfg : Config) (n : ℕ) : AcqRet T → Prop
  | .first src _ _ => n = src.length / cfg.cap
  | .root .. => True
  | .more src _ _ blocks => InHand cfg src.length (blocks.length + n)

/-- The private blocks of a producer before its reservation. -/
def Stocked (cfg : Config) : Pc T → Prop
  | .wLoop src _ _ blocks | .wReIndex src blocks | .wReBlock src _ blocks
  | .wCas src _ _ blocks => InHand cfg src.length blocks.length
  | .tLoad (.acquire ret acc n) | .tCas (.acquire ret acc n) _ | .aAlloc ret acc n =>
    ret.Stocked cfg (acc.length + n)
  | .tWalk (.acquire ret acc n) taken _ => ret.Stocked cfg (acc.length + n) ∧ taken.length ≤ n
  | _ => True

/-- `+=` on block lists adds the lengths. -/
theorem addAssign_length (s : Shared T) (self rhs : List Addr) :
    (s.addAssign self rhs).2.length = rhs.length + self.length := by
  unfold Shared.addAssign
  split
  · rename_i hnone
    rw [List.getLast?_eq_none_iff] at hnone
    simp [hnone]
  · simp

/-- `acquire` returns with the blocks it was asked for, -/
theorem stocked_resume {ret : AcqRet T} {new : List Addr} (h : ret.Stocked cfg new.length)
    (s : Shared T) : Stocked cfg (resume s ret new).2 := by
  cases ret with
  | first src index block => exact .inl h
  | root => trivial
  | more src index block blocks =>
    show InHand cfg src.length (s.addAssign blocks new).2.length
    rw [addAssign_length, Nat.add_comm]
    exact h

/-- also if it is asked for none, -/
theorem stocked_acquire {ret : AcqRet T} (h : ret.Stocked cfg n) (s : Shared T) :
    Stocked cfg (acquire s ret n).2 := by
  unfold acquire
  split
  · rename_i hn
    subst hn
    exact stocked_resume h s
  · show ret.Stocked cfg (0 + n)
    rwa [Nat.zero_add]

/-- and from the freelist. -/
theorem stocked_took {cached : List Addr} (s : Shared T)
    (h : ∀ r acc n, ret = .acquire r acc n → r.Stocked cfg (acc.length + n) ∧ cached.length ≤ n) :
    Stocked cfg (took s ret cached).2 := by
  cases ret with
  | flush => trivial
  | acquire r acc n =>
    obtain ⟨hst, hle⟩ := h r acc n rfl
    have hlen := addAssign_length s acc cached
    simp only [took]
    split
    · apply stocked_resume
      rwa [hlen, show cached.length + acc.length = acc.length + n by omega]
    · show r.Stocked cfg ((s.addAssign acc cached).2.length + (n - cached.length))
      rwa [hlen, show cached.length + acc.length + (n - cached.length) = acc.length + n by omega]

/-- The provisioning test adds the block for the rest of the batch, once. -/
theorem InHand.more {b len : ℕ} (h : InHand cfg len b) :
    InHand cfg len (b + divCeil (len - cfg.cap * b) cfg.cap) := by
  have hpos := cfg.cap_pos
  right
  unfold divCeil
  rcases h with rfl | rfl
  · have hdiv := Nat.div_add_mod len cfg.cap
    calc len / cfg.cap + (len - cfg.cap * (len / cfg.cap) + cfg.cap - 1) / cfg.cap
        = (len - cfg.cap * (len / cfg.cap) + cfg.cap - 1 + cfg.cap * (len / cfg.cap)) /
            cfg.cap := by
          rw [Nat.add_mul_div_left _ _ hpos, Nat.add_comm]
      _ = (len + cfg.cap - 1) / cfg.cap := by
          congr 1
          omega
  · have hle : len ≤ cfg.cap * divCeil len cfg.cap := by
      have := Nat.lt_mul_div_succ (len + cfg.cap - 1) hpos
      rw [Nat.mul_add, Nat.mul_one] at this
      unfold divCeil
      omega
    rw [Nat.sub_eq_zero_of_le hle, Nat.zero_add, Nat.div_eq_of_lt (Nat.sub_lt hpos Nat.one_pos)]
    rfl

/-- The provisioning test keeps the count. -/
theorem stocked_provision {src : List T} {index : ℕ} {block : Option Addr} {blocks : List Addr}
    (h : InHand cfg src.length blocks.length) (s : Shared T) :
    Stocked cfg (provision cfg s src index block blocks).2 := by
  simp only [provision]
  split
  · apply stocked_acquire
    exact h.more
  · exact h

/-- `take` has cut off what it gives. -/
theorem stocked_severed {taken : List Addr} {rest : Option Addr}
    (h : Stocked cfg (.tWalk ret taken rest)) (s : Shared T) :
    Stocked cfg (step.severed s ret taken rest).2 := by
  unfold step.severed
  split
  · trivial
  · apply stocked_took
    rintro r acc n rfl
    exact h

/-- `take` on an empty or busy list. -/
theorem stocked_none (h : Stocked cfg (.tLoad ret)) (s : Shared T) :
    Stocked cfg (took s ret []).2 := by
  apply stocked_took
  rintro r acc n rfl
  exact ⟨h, Nat.zero_le _⟩

/-- `take` reads the freelist again. -/
theorem reload_stocked (t : Tid) (s : Shared T) (ret : TakeRet T) (h : Stocked cfg (.tLoad ret)) :
    Post (fun r => Stocked cfg r.2) (step cfg t .run s (.tLoad ret)) :=
  reload_post
    (fun a _ => by
      cases ret with
      | acquire => exact h
      | flush => trivial)
    fun _ => stocked_none h s

/-- A dereference of `write_from`. -/
theorem deref_stocked {p : Option Addr} {k : Addr → Shared T × Pc T}
    (hk : ∀ a, Stocked cfg (k a).2) : Post (fun r => Stocked cfg r.2) (deref s p k) :=
  deref_post (fun _ => trivial) fun a _ => hk a

/-- A step outside `write_from` keeps no stock. -/
theorem stocked_of_op (h : ∀ src, pc.op ≠ some (.writeFrom src)) : Stocked cfg pc := by
  cases pc with
  | wLoop src | wReIndex src | wReBlock src | wCas src => exact absurd rfl (h src)
  | aAlloc ret =>
    cases ret with
    | first src | root src | more src => exact absurd rfl (h src)
  | tLoad ret | tCas ret | tWalk ret =>
    cases ret with
    | flush => trivial
    | acquire ret =>
      cases ret with
      | first src | root src | more src => exact absurd rfl (h src)
  | _ => trivial

/-- A step of `write_from` or of the freelist keeps the count. -/
theorem write_stocked (hl : Local cfg t s g pc) (h : Stocked cfg pc)
    (hpc : pc.reading = false) : Post (fun r => Stocked cfg r.2) (step cfg t .run s pc) := by
  cases pc with
  | wBlock src index =>
    apply stocked_acquire
    exact rfl
  | wLoop src index block blocks =>
    simp only [step]
    split
    · exact h
    · split
      · show Stocked cfg (acquire s (.root src index blocks) 1).2
        apply stocked_acquire
        trivial
      · exact stocked_provision h s
  | wReIndex src blocks | wReBlock src index blocks => exact h
  | wRoot | wRootStore => exact hl.here.elim
  | wCas src index block blocks =>
    simp only [step]
    split
    · simp only [reserved]
      split <;> trivial
    · exact h
  | wSeg w =>
    simp only [step]
    split
    · split <;> trivial
    · trivial
  | wNext | wPublish | apHas => exact deref_stocked fun a => trivial
  | wCopy w next i =>
    simp only [step]
    split
    · split
      · trivial
      · exact deref_stocked fun a => trivial
    · trivial
  | apFind w token curr blocks =>
    refine deref_stocked fun a => ?_
    split <;> trivial
  | apWalk a =>
    simp only [step]
    split
    · exact deref_stocked fun b => trivial
    · trivial
  | tLoad ret => exact reload_stocked t s ret h
  | tCas ret head =>
    cases ret with
    | acquire ret acc n =>
      simp only [step]
      split
      · exact ⟨h, Nat.zero_le _⟩
      · exact reload_stocked t s (.acquire ret acc n) h
    | flush =>
      simp only [step]
      split
      · trivial
      · exact reload_stocked t s .flush trivial
  | tWalk ret taken rest =>
    simp only [step]
    split
    · split
      · rename_i hlim
        cases ret with
        | flush => trivial
        | acquire ret acc n =>
          have hlt : taken.length < n := by simpa [TakeRet.limit] using hlim
          refine ⟨h.1, ?_⟩
          rwa [List.length_append]
      · exact stocked_severed h s
    · exact stocked_severed h s
  | wDrop | fDrop =>
    simp only [step]
    split <;> trivial
  | wIndex | apLink | apBlock | apIndex | idle | fault | aAlloc => trivial
  | _ => simp [Pc.reading] at hpc

/-- Every step keeps the count. -/
theorem step_stocked (hl : Local cfg t s g pc) (h : Stocked cfg pc) {act : Act T}
    {r : Shared T × Pc T} (hs : step cfg t act s pc = some r) : Stocked cfg r.2 := by
  cases act with
  | call op =>
    obtain rfl := call_idle hs
    apply Post.of hs
    cases op with
    | writeFrom | readInto =>
      simp only [step]
      split <;> trivial
    | flushFreelist => trivial
  | run =>
    cases hpc : pc.reading with
    | false =>
      apply Post.of hs
      exact write_stocked hl h hpc
    | true =>
      apply stocked_of_op
      intro src hop
      rcases step_quiet_or_returns hs with ⟨_, _, hq⟩ | ⟨op, res, _, rfl⟩
      · rcases hq with hq | hq
        · rw [hq] at hop
          simp [Pc.op] at hop
        · rw [hq] at hop
          cases pc <;> simp [Pc.reading, Act.op, Pc.op] at hpc hop
      · simp [ret, Pc.op] at hop
  | spurious =>
    apply Post.of hs
    cases pc with
    | wCas src index block blocks => exact h
    | tCas ret head =>
      apply reload_stocked t s ret
      cases ret with
      | acquire => exact h
      | flush => trivial
    | _ => trivial
  | alloc a =>
    apply Post.of hs
    cases pc with
    | aAlloc ret acc n =>
      have hn : 0 < n := hl.here.1
      have hst : ret.Stocked cfg (acc.length + n) := h
      simp only [step]
      split
      · trivial
      · split
        · apply stocked_resume
          rwa [List.length_cons, show acc.length + 1 = acc.length + n by omega]
        · show ret.Stocked cfg ((a :: acc).length + (n - 1))
          rwa [List.length_cons, show acc.length + 1 + (n - 1) = acc.length + n by omega]
    | _ => trivial

/-- The blocks in hand along every run. -/
theorem run_stocked {c : Conf T} (hc : (system T cfg).Reachable c) (t : Tid) :
    Stocked cfg (c.pc t) := by
  induction hc with
  | start => trivial
  | @step c c' u hc hm ih =>
    obtain ⟨g, _, hL⟩ := run_ok hc
    obtain ⟨s', p', ⟨act, hs⟩, rfl⟩ := hm
    by_cases hu : t = u
    · subst hu
      simpa using step_stocked (hL t) ih hs
    · simpa [Function.update_of_ne hu] using ih

/-- The product in terms of the batch. -/
theorem product_eq (hl : Local cfg t s g pc) (hst : Stocked cfg pc) {x : ℕ}
    (hx : product cfg pc = some x) : ∃ src index block blocks,
      pc = .wLoop src index block blocks ∧ InHand cfg src.length blocks.length ∧
      x = cfg.cap * (blocks.length + index % 2 + 1) := by
  cases pc with
  | wLoop src index block blocks =>
    simp only [product] at hx
    split at hx
    · cases hx
    · exact ⟨src, index, block, blocks, rfl, hst, (Option.some.inj hx).symm⟩
  | wRootStore => exact hl.here.elim
  | _ => simp [product] at hx

end Machine

/-! ## A geometry that wraps -/

/-- A thread that fills the first block computes the first index of the second. -/
theorem fills_first_block (cfg : Config) (src : List T) (hlen : src.length = cfg.cap) :
    ∃ (c : Conf T) (a : Advance T), (system T cfg).Reachable c ∧ c.pc 0 = .apIndex a 0 ∧
      a.token + a.depth = 1 ∧ a.off = 0 ∧ a.rem = 0 := by
  have hpos := cfg.cap_pos
  have hns := cfg.ns_pos
  have hne : src.isEmpty = false := by
    cases src with
    | nil =>
      rw [List.length_nil] at hlen
      omega
    | cons => rfl
  have hfirst : isSentinel cfg 0 = false := by
    have := cfg.nv_pos
    simp [isSentinel]
    omega
  have hlast : isSentinel cfg cfg.cap = true := by
    have h := (isSentinel_iff cfg (k := 0) cfg.cap_lt_stride).mpr (le_refl _)
    simpa using h
  have hroom : ¬ cfg.cap * 2 ≤ cfg.cap := by omega
  have hdiv : cfg.cap / cfg.cap = 1 := Nat.div_self hpos
  have hne0 : cfg.cap ≠ 0 := by omega
  obtain ⟨c, hexec, a, hpc, h⟩ : ∃ c, exec cfg (calls 0 (.writeFrom src) 3 ++ [(0, .alloc 1)] ++
      List.replicate 8 (0, .run)) = some c ∧ ∃ a, c.pc 0 = .apIndex a 0 ∧
        a.token + a.depth = 1 ∧ a.off = 0 ∧ a.rem = 0 := by
    simp [exec, calls, System.runs, System.start, system,
      System.ofStep, step, hne, acquire, hlen, hdiv, Shared.new, took,
      Shared.addAssign, resume, provision, decodeIndex, hfirst, hlast, reserved, reserveIndex,
      List.replicate, deref, Shared.alloc, Shared.modBlock, Block.setNext, Block.new, hroom, hne0]
  exact ⟨c, a, exec_reachable hexec, hpc, h⟩

/-- A 64-bit target whose cache lines are padded to 128 bytes. -/
def bits64 : Target := ⟨64, ⟨256, 128⟩, ⟨80, 8⟩⟩

section TwoBlocks

variable {cfg : Config} {m : Target}

/-- The last position of the second block. -/
theorem two_blocks (cfg : Config) : (2 * cfg.nv + 1) * cfg.ns = cfg.stride + cfg.cap := by
  unfold Config.stride Config.cap
  ring

/-- A position has one packed index. -/
theorem word_inj {k off f k' off' f' : ℕ} (hoff : off ≤ cfg.cap) (hf : f < 2)
    (hoff' : off' ≤ cfg.cap) (hf' : f' < 2) (h : cfg.word k off f = cfg.word k' off' f') :
    k = k' ∧ off = off' ∧ f = f' := by
  have hcap := cfg.cap_lt_stride
  have hflag : f = f' := by
    calc f = cfg.word k off f % 2 := (word_mod_two cfg hf).symm
      _ = cfg.word k' off' f' % 2 := by rw [h]
      _ = f' := word_mod_two cfg hf'
  have hpos : cfg.stride * k + off = cfg.stride * k' + off' := by
    rw [← word_div_two cfg hf, h, word_div_two cfg hf']
  obtain ⟨hk, ho⟩ := ridx_inj cfg (by omega) (by omega) hpos
  exact ⟨hk, ho, hflag⟩

/-- The packed indices of the first two blocks fit a word. -/
def WordsFit (cfg : Config) (m : Target) : Prop :=
  ∀ k off f, k ≤ 1 → off ≤ cfg.cap → f < 2 → cfg.word k off f < 2 ^ m.bits

/-- The packed indices of the first two blocks differ in a word. -/
def WordsDiffer (cfg : Config) (m : Target) : Prop :=
  ∀ k off f k' off' f', k ≤ 1 → off ≤ cfg.cap → f < 2 → k' ≤ 1 → off' ≤ cfg.cap → f' < 2 →
    cfg.word k off f % 2 ^ m.bits = cfg.word k' off' f' % 2 ^ m.bits →
    k = k' ∧ off = off' ∧ f = f'

/-- They fit exactly if the last one does. -/
theorem wordsFit_iff (hm : 0 < m.usizeMax) :
    WordsFit cfg m ↔ cfg.stride + cfg.cap ≤ m.usizeMax / 2 := by
  have hhalf := m.half_lt hm
  constructor
  · intro h
    have hlast := h 1 cfg.cap 1 le_rfl le_rfl (by decide)
    unfold Config.word at hlast
    unfold Target.usizeMax
    omega
  · intro hfit k off f hk hoff hf
    have hle : cfg.stride * k ≤ cfg.stride := by
      simpa using Nat.mul_le_mul_left cfg.stride hk
    unfold Config.word
    omega

/-- In an accepted geometry they differ exactly if they fit: the first position that does
not fit is encoded as one of the first block. -/
theorem wordsDiffer_iff (hcap : cfg.cap ≤ m.usizeMax / 2) : WordsDiffer cfg m ↔ WordsFit cfg m := by
  have hpos := cfg.cap_pos
  constructor
  · intro h
    rw [wordsFit_iff (by omega)]
    by_contra hover
    obtain ⟨half, hbits⟩ : ∃ half, 2 ^ m.bits = 2 * half := by
      have hm : 0 < m.usizeMax := by omega
      unfold Target.usizeMax at hm
      cases hb : m.bits with
      | zero => simp [hb] at hm
      | succ b => exact ⟨2 ^ b, by ring⟩
    have hmax : m.usizeMax / 2 + 1 = half := by
      have := Nat.two_pow_pos m.bits
      unfold Target.usizeMax
      omega
    have hns : cfg.ns ≤ cfg.cap := Nat.le_mul_of_pos_left _ cfg.nv_pos
    have hstride := cfg.stride_eq
    rcases Nat.lt_or_ge half cfg.stride with hlt | hge
    · -- the second block starts beyond the word, inside the first
      have hsame : cfg.word 1 0 0 % 2 ^ m.bits = cfg.word 0 (cfg.stride - half) 0 % 2 ^ m.bits := by
        have hsplit : cfg.word 1 0 0 = cfg.word 0 (cfg.stride - half) 0 + 2 ^ m.bits := by
          unfold Config.word
          omega
        rw [hsplit, Nat.add_mod_right]
      have hne := h 1 0 0 0 (cfg.stride - half) 0 le_rfl (Nat.zero_le _) (by decide)
        (Nat.zero_le _) (by omega) (by decide) hsame
      omega
    · -- the word ends inside the second block
      have hsame : cfg.word 1 (half - cfg.stride) 0 % 2 ^ m.bits = cfg.word 0 0 0 % 2 ^ m.bits := by
        have hsplit : cfg.word 1 (half - cfg.stride) 0 = cfg.word 0 0 0 + 2 ^ m.bits := by
          unfold Config.word
          omega
        rw [hsplit, Nat.add_mod_right]
      have hne := h 1 (half - cfg.stride) 0 0 0 0 le_rfl (by omega) (by decide)
        (Nat.zero_le _) (Nat.zero_le _) (by decide) hsame
      omega
  · intro h k off f k' off' f' hk ho hf hk' ho' hf' heq
    rw [Nat.mod_eq_of_lt (h k off f hk ho hf), Nat.mod_eq_of_lt (h k' off' f' hk' ho' hf')] at heq
    exact word_inj ho hf ho' hf' heq

end TwoBlocks

end V8
