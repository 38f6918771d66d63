/-
# The storage of a v8 block

A block is one allocation: its header, then the virtual blocks, each a header
followed by its slots.  `Geometry::new` composes three layouts to find the offsets,
and `Block::vblock` and `Block::slots` compute addresses from those offsets by hand.

`Part` names what lies in a block and `Part.offset` is the offset the source computes
for it.  `storage_sound` says that in every accepted geometry all parts are aligned,
inside the allocation and apart from each other, whatever the element's layout.
-/
import Ubq.V8.Geometry

namespace V8

/-! ## Alignments -/

/-- The layout of a type: its alignment is a power of two that divides its size. -/
structure Layout.OfType (l : Layout) : Prop where
  pow : ∃ k, l.align = 2 ^ k
  dvd : l.align ∣ l.size

theorem Layout.OfType.pos {l : Layout} (h : l.OfType) : 0 < l.align := by
  obtain ⟨k, hk⟩ := h.pow
  rw [hk]
  exact Nat.two_pow_pos k

namespace Layout

theorem le_roundUp (size : ℕ) {align : ℕ} (h : 0 < align) : size ≤ roundUp size align := by
  have hdiv := Nat.div_add_mod (size + align - 1) align
  have hmod := Nat.mod_lt (size + align - 1) h
  unfold roundUp divCeil
  rw [Nat.mul_comm]
  omega

theorem roundUp_lt (size : ℕ) {align : ℕ} (h : 0 < align) : roundUp size align < size + align := by
  have hdiv := Nat.div_mul_le_self (size + align - 1) align
  unfold roundUp divCeil
  omega

theorem roundUp_zero {align : ℕ} (h : 0 < align) : roundUp 0 align = 0 := by
  unfold roundUp divCeil
  rw [Nat.div_eq_of_lt (by omega), Nat.zero_mul]

theorem dvd_roundUp (size align : ℕ) : align ∣ roundUp size align :=
  Nat.dvd_mul_left _ _

/-- The larger of two powers of two is a multiple of both. -/
theorem dvd_max {a b : ℕ} (ha : ∃ k, a = 2 ^ k) (hb : ∃ k, b = 2 ^ k) :
    a ∣ max a b ∧ b ∣ max a b ∧ ∃ k, max a b = 2 ^ k := by
  obtain ⟨i, rfl⟩ := ha
  obtain ⟨j, rfl⟩ := hb
  rcases Nat.le_total i j with hij | hij
  · have hle : 2 ^ i ≤ 2 ^ j := Nat.pow_le_pow_right (by decide) hij
    rw [Nat.max_eq_right hle]
    exact ⟨Nat.pow_dvd_pow 2 hij, Nat.dvd_refl _, j, rfl⟩
  · have hle : 2 ^ j ≤ 2 ^ i := Nat.pow_le_pow_right (by decide) hij
    rw [Nat.max_eq_left hle]
    exact ⟨Nat.dvd_refl _, Nat.pow_dvd_pow 2 hij, i, rfl⟩

theorem fromSizeAlign_eq_some {m : Target} {size align : ℕ} {l : Layout}
    (h : fromSizeAlign m size align = some l) : l = ⟨size, align⟩ ∧ size ≤ m.maxSizeFor align := by
  unfold fromSizeAlign at h
  split at h
  · exact ⟨(Option.some.inj h).symm, by assumption⟩
  · cases h

theorem array_eq_some {m : Target} {elem l : Layout} {n : ℕ} (h : array m elem n = some l) :
    l = ⟨elem.size * n, elem.align⟩ := by
  unfold array at h
  split at h
  · cases h
  · exact (Option.some.inj h).symm

theorem extend_eq_some {m : Target} {self next l : Layout} {offset : ℕ}
    (h : self.extend m next = some (l, offset)) :
    offset = roundUp self.size next.align ∧
    l = ⟨offset + next.size, max self.align next.align⟩ ∧
    offset + next.size ≤ m.maxSizeFor (max self.align next.align) := by
  obtain ⟨l', hl', heq⟩ := Option.map_eq_some_iff.mp h
  injection heq with hl hoff
  obtain ⟨hl'', hle⟩ := fromSizeAlign_eq_some hl'
  subst hoff
  exact ⟨rfl, hl ▸ hl'', hle⟩

end Layout

open Layout (roundUp)

/-! ## What `Geometry::new` computes -/

/-- The alignment of a virtual block. -/
def Target.vblockAlign (m : Target) (elem : Layout) : ℕ := max m.vblock.align elem.align

/-- The alignment of a block. -/
def Target.blockAlign (m : Target) (elem : Layout) : ℕ := max m.block.align (m.vblockAlign elem)

/-- The offsets of an accepted geometry. -/
structure Geometry.Composed (m : Target) (elem : Layout) (geo : Geometry) : Prop where
  slotsOffset : geo.slotsOffset = roundUp m.vblock.size elem.align
  vblockStride : geo.vblockStride =
    roundUp (geo.slotsOffset + elem.size * geo.config.ns) (m.vblockAlign elem)
  vblocksOffset : geo.vblocksOffset = roundUp m.block.size (m.vblockAlign elem)
  layout : geo.layout =
    ⟨roundUp (geo.vblocksOffset + geo.vblockStride * geo.config.nv) (m.blockAlign elem),
      m.blockAlign elem⟩
  fits : geo.vblocksOffset + geo.vblockStride * geo.config.nv ≤ m.maxSizeFor (m.blockAlign elem)

theorem Geometry.new_composed {m : Target} {elem : Layout} {config : Dims} {geo : Geometry}
    (h : Geometry.new m elem config = .ok geo) : geo.Composed m elem := by
  unfold Geometry.new at h
  split at h
  · cases h
  · dsimp only at h
    split at h
    · rename_i g hacc
      obtain rfl := Except.ok.inj h
      simp only [Option.bind_eq_bind, Option.bind_eq_some_iff, Option.pure_def,
        Option.some.injEq] at hacc
      obtain ⟨cap, _, slots, hslots, ⟨vb, soff⟩, hvb, size, hsize, vbs, hvbs, ⟨lay, voff⟩, hlay,
        rfl⟩ := hacc
      obtain rfl := Layout.array_eq_some hslots
      obtain ⟨hsoff, rfl, _⟩ := Layout.extend_eq_some hvb
      obtain ⟨rfl, _⟩ := checkedMul_eq_some hsize
      obtain ⟨rfl, _⟩ := Layout.fromSizeAlign_eq_some hvbs
      obtain ⟨hvoff, rfl, hfits⟩ := Layout.extend_eq_some hlay
      exact ⟨hsoff, rfl, hvoff, rfl, hfits⟩
    · cases h

/-! ## The parts of a block -/

/-- What lies in the allocation of a block. -/
inductive Part
  | header
  | vblock (i : ℕ)
  | slot (i j : ℕ)
  deriving DecidableEq

namespace Part

/-- The parts of a block of these dimensions. -/
def Valid (cfg : Config) : Part → Prop
  | .header => True
  | .vblock i => i < cfg.nv
  | .slot i j => i < cfg.nv ∧ j < cfg.ns

/-- The layout of a part. -/
def layout (m : Target) (elem : Layout) : Part → Layout
  | .header => m.block
  | .vblock _ => m.vblock
  | .slot _ _ => elem

/-- Where the source looks for the part: `Block::vblock` and `Block::slots`. -/
def offset (geo : Geometry) (elem : Layout) : Part → ℕ
  | .header => 0
  | .vblock i => geo.vblocksOffset + i * geo.vblockStride
  | .slot i j => geo.vblocksOffset + i * geo.vblockStride + geo.slotsOffset + j * elem.size

/-- The values on the way to the offset. -/
def computed (geo : Geometry) (elem : Layout) : Part → List ℕ
  | .header => []
  | .vblock i => [i * geo.vblockStride, geo.vblocksOffset + i * geo.vblockStride]
  | .slot i j => [i * geo.vblockStride, geo.vblocksOffset + i * geo.vblockStride,
      geo.vblocksOffset + i * geo.vblockStride + geo.slotsOffset, j * elem.size,
      geo.vblocksOffset + i * geo.vblockStride + geo.slotsOffset + j * elem.size]

/-- Where the part ends. -/
def stop (m : Target) (geo : Geometry) (elem : Layout) (p : Part) : ℕ :=
  p.offset geo elem + (p.layout m elem).size

end Part

/-- The block's storage holds all its parts. -/
structure Sound (m : Target) (elem : Layout) (geo : Geometry) : Prop where
  aligned : ∀ base, geo.layout.align ∣ base → ∀ p : Part, p.Valid geo.config →
    (p.layout m elem).align ∣ base + p.offset geo elem
  inside : ∀ p : Part, p.Valid geo.config → p.stop m geo elem ≤ geo.layout.size
  apart : ∀ p q : Part, p.Valid geo.config → q.Valid geo.config → p ≠ q →
    p.stop m geo elem ≤ q.offset geo elem ∨ q.stop m geo elem ≤ p.offset geo elem
  small : geo.layout.size ≤ m.usizeMax / 2
  fits : ∀ p : Part, p.Valid geo.config → ∀ x ∈ p.computed geo elem, x ≤ geo.layout.size

section

variable {m : Target} {elem : Layout} {geo : Geometry} {p : Part}

/-- The `i`-th of `n` steps of a stride ends within the `n` strides. -/
theorem stride_le {i n : ℕ} (stride : ℕ) (h : i < n) : i * stride + stride ≤ stride * n := by
  have hle := Nat.mul_le_mul_right stride (Nat.succ_le_of_lt h)
  rwa [Nat.succ_mul, Nat.mul_comm n] at hle

/-- The slots of a virtual block lie behind its header and inside its stride. -/
theorem Geometry.Composed.slot_inside (h : geo.Composed m elem) (hv : m.vblock.OfType)
    (he : elem.OfType) {j : ℕ} (hj : j < geo.config.ns) :
    m.vblock.size ≤ geo.slotsOffset ∧
    geo.slotsOffset + j * elem.size + elem.size ≤ geo.vblockStride := by
  have hA : 0 < m.vblockAlign elem := Nat.lt_of_lt_of_le hv.pos (Nat.le_max_left _ _)
  have hstart := Layout.le_roundUp m.vblock.size he.pos
  have hend := Layout.le_roundUp (geo.slotsOffset + elem.size * geo.config.ns) hA
  rw [← h.slotsOffset] at hstart
  rw [← h.vblockStride] at hend
  have hslot := stride_le elem.size hj
  constructor <;> omega

/-- The header of a virtual block lies inside its stride. -/
theorem Geometry.Composed.vblock_inside (h : geo.Composed m elem) (hv : m.vblock.OfType)
    (he : elem.OfType) : m.vblock.size ≤ geo.vblockStride := by
  have hslot := h.slot_inside hv he geo.config.ns_pos
  omega

/-- A part of virtual block `i` lies within its stride. -/
theorem Geometry.Composed.within (h : geo.Composed m elem) (hv : m.vblock.OfType)
    (he : elem.OfType) (hp : p.Valid geo.config) {i : ℕ}
    (hi : p = .vblock i ∨ ∃ j, p = .slot i j) :
    i < geo.config.nv ∧ geo.vblocksOffset + i * geo.vblockStride ≤ p.offset geo elem ∧
    p.stop m geo elem ≤ geo.vblocksOffset + i * geo.vblockStride + geo.vblockStride := by
  obtain rfl | ⟨j, rfl⟩ := hi
  · have hin := h.vblock_inside hv he
    refine ⟨hp, Nat.le_refl _, ?_⟩
    show geo.vblocksOffset + i * geo.vblockStride + m.vblock.size ≤ _
    omega
  · have hin := h.slot_inside hv he hp.2
    refine ⟨hp.1, ?_, ?_⟩
    · show _ ≤ geo.vblocksOffset + i * geo.vblockStride + geo.slotsOffset + j * elem.size
      omega
    · show geo.vblocksOffset + i * geo.vblockStride + geo.slotsOffset + j * elem.size + elem.size
        ≤ _
      omega

/-- The virtual blocks lie behind the header of the block. -/
theorem Geometry.Composed.behind (h : geo.Composed m elem) (hv : m.vblock.OfType) :
    m.block.size ≤ geo.vblocksOffset := by
  rw [h.vblocksOffset]
  exact Layout.le_roundUp _ (Nat.lt_of_lt_of_le hv.pos (Nat.le_max_left _ _))

/-- Every part but the header belongs to a virtual block. -/
theorem Part.cases_of_ne (h : p ≠ .header) : ∃ i, p = .vblock i ∨ ∃ j, p = .slot i j := by
  cases p with
  | header => exact absurd rfl h
  | vblock i => exact ⟨i, .inl rfl⟩
  | slot i j => exact ⟨i, .inr ⟨j, rfl⟩⟩

theorem Geometry.Composed.stop_le (h : geo.Composed m elem) (hb : m.block.OfType)
    (hv : m.vblock.OfType) (he : elem.OfType) (hp : p.Valid geo.config) :
    p.stop m geo elem ≤ geo.layout.size := by
  have hA : 0 < m.blockAlign elem := Nat.lt_of_lt_of_le hb.pos (Nat.le_max_left _ _)
  have hsize : geo.vblocksOffset + geo.vblockStride * geo.config.nv ≤ geo.layout.size := by
    rw [h.layout]
    exact Layout.le_roundUp _ hA
  by_cases hne : p = .header
  · subst hne
    have hbehind := h.behind hv
    show 0 + m.block.size ≤ _
    omega
  · obtain ⟨i, hi⟩ := Part.cases_of_ne hne
    obtain ⟨hlt, _, hstop⟩ := h.within hv he hp hi
    have hstride := stride_le geo.vblockStride hlt
    omega

/-- Two parts of one virtual block are apart. -/
theorem Geometry.Composed.apart_in_vblock (h : geo.Composed m elem) (hv : m.vblock.OfType)
    (he : elem.OfType) {p q : Part} (hp : p.Valid geo.config) (hq : q.Valid geo.config) {i : ℕ}
    (hpi : p = .vblock i ∨ ∃ j, p = .slot i j) (hqi : q = .vblock i ∨ ∃ j, q = .slot i j)
    (hne : p ≠ q) :
    p.stop m geo elem ≤ q.offset geo elem ∨ q.stop m geo elem ≤ p.offset geo elem := by
  obtain rfl | ⟨j, rfl⟩ := hpi <;> obtain rfl | ⟨j', rfl⟩ := hqi
  · exact absurd rfl hne
  · have hin := h.slot_inside hv he hq.2
    left
    show geo.vblocksOffset + i * geo.vblockStride + m.vblock.size
      ≤ geo.vblocksOffset + i * geo.vblockStride + geo.slotsOffset + j' * elem.size
    omega
  · have hin := h.slot_inside hv he hp.2
    right
    show geo.vblocksOffset + i * geo.vblockStride + m.vblock.size
      ≤ geo.vblocksOffset + i * geo.vblockStride + geo.slotsOffset + j * elem.size
    omega
  · -- the slots of one virtual block are an array
    have hcell : ∀ a b : ℕ, a < b → a * elem.size + elem.size ≤ b * elem.size := by
      intro a b hab
      rw [Nat.mul_comm b]
      exact stride_le _ hab
    rcases Nat.lt_trichotomy j j' with hlt | rfl | hlt
    · have := hcell j j' hlt
      left
      show geo.vblocksOffset + i * geo.vblockStride + geo.slotsOffset + j * elem.size + elem.size
        ≤ geo.vblocksOffset + i * geo.vblockStride + geo.slotsOffset + j' * elem.size
      omega
    · exact absurd rfl hne
    · have := hcell j' j hlt
      right
      show geo.vblocksOffset + i * geo.vblockStride + geo.slotsOffset + j' * elem.size + elem.size
        ≤ geo.vblocksOffset + i * geo.vblockStride + geo.slotsOffset + j * elem.size
      omega

theorem Geometry.Composed.apart (h : geo.Composed m elem) (hv : m.vblock.OfType)
    (he : elem.OfType) {p q : Part} (hp : p.Valid geo.config) (hq : q.Valid geo.config)
    (hne : p ≠ q) :
    p.stop m geo elem ≤ q.offset geo elem ∨ q.stop m geo elem ≤ p.offset geo elem := by
  have hbehind := h.behind hv
  by_cases hph : p = .header
  · subst hph
    obtain ⟨i, hi⟩ := Part.cases_of_ne fun hc => hne hc.symm
    obtain ⟨_, hstart, _⟩ := h.within hv he hq hi
    left
    show 0 + m.block.size ≤ _
    omega
  by_cases hqh : q = .header
  · subst hqh
    obtain ⟨i, hi⟩ := Part.cases_of_ne hph
    obtain ⟨_, hstart, _⟩ := h.within hv he hp hi
    right
    show 0 + m.block.size ≤ _
    omega
  obtain ⟨i, hi⟩ := Part.cases_of_ne hph
  obtain ⟨i', hi'⟩ := Part.cases_of_ne hqh
  obtain ⟨_, hstart, hstop⟩ := h.within hv he hp hi
  obtain ⟨_, hstart', hstop'⟩ := h.within hv he hq hi'
  have hstep : ∀ a b : ℕ, a < b →
      a * geo.vblockStride + geo.vblockStride ≤ b * geo.vblockStride := by
    intro a b hab
    rw [Nat.mul_comm b]
    exact stride_le _ hab
  rcases Nat.lt_trichotomy i i' with hlt | rfl | hlt
  · have := hstep i i' hlt
    left
    omega
  · exact h.apart_in_vblock hv he hp hq hi hi' hne
  · have := hstep i' i hlt
    right
    omega

/-- The block's alignment is a multiple of every part's, and so are the offsets. -/
theorem Geometry.Composed.aligned (h : geo.Composed m elem) (hb : m.block.OfType)
    (hv : m.vblock.OfType) (he : elem.OfType) {base : ℕ} (hbase : geo.layout.align ∣ base)
    (p : Part) : (p.layout m elem).align ∣ base + p.offset geo elem := by
  obtain ⟨hvV, heV, hpow⟩ := Layout.dvd_max hv.pow he.pow
  obtain ⟨hbB, hVB, _⟩ := Layout.dvd_max hb.pow hpow
  rw [h.layout] at hbase
  have hoff : m.vblockAlign elem ∣ geo.vblocksOffset := by
    rw [h.vblocksOffset]
    exact Layout.dvd_roundUp _ _
  have hstride : m.vblockAlign elem ∣ geo.vblockStride := by
    rw [h.vblockStride]
    exact Layout.dvd_roundUp _ _
  have hvblock : ∀ i, m.vblockAlign elem ∣ base + (geo.vblocksOffset + i * geo.vblockStride) :=
    fun i => Nat.dvd_add (Nat.dvd_trans hVB hbase)
      (Nat.dvd_add hoff (Nat.dvd_trans hstride (Nat.dvd_mul_left _ _)))
  cases p with
  | header => exact Nat.dvd_add (Nat.dvd_trans hbB hbase) (Nat.dvd_zero _)
  | vblock i => exact Nat.dvd_trans hvV (hvblock i)
  | slot i j =>
    have hslots : elem.align ∣ geo.slotsOffset := by
      rw [h.slotsOffset]
      exact Layout.dvd_roundUp _ _
    have hj : elem.align ∣ j * elem.size := Nat.dvd_trans he.dvd (Nat.dvd_mul_left _ _)
    have hsum := Nat.dvd_add (Nat.dvd_add (Nat.dvd_trans heV (hvblock i)) hslots) hj
    show elem.align ∣ base +
      (geo.vblocksOffset + i * geo.vblockStride + geo.slotsOffset + j * elem.size)
    rwa [show base + (geo.vblocksOffset + i * geo.vblockStride + geo.slotsOffset + j * elem.size)
      = base + (geo.vblocksOffset + i * geo.vblockStride) + geo.slotsOffset +
        j * elem.size by omega]

/-- The rounded size of the block is at most `isize::MAX`. -/
theorem Geometry.Composed.small (h : geo.Composed m elem) (hb : m.block.OfType) :
    geo.layout.size ≤ m.usizeMax / 2 := by
  have hA : 0 < m.blockAlign elem := Nat.lt_of_lt_of_le hb.pos (Nat.le_max_left _ _)
  have hlt := Layout.roundUp_lt (geo.vblocksOffset + geo.vblockStride * geo.config.nv) hA
  have hfits := h.fits
  unfold Target.maxSizeFor at hfits
  rw [h.layout]
  show roundUp _ _ ≤ _
  rcases Nat.eq_zero_or_pos (geo.vblocksOffset + geo.vblockStride * geo.config.nv) with hz | hpos
  · rw [hz, Layout.roundUp_zero hA]
    exact Nat.zero_le _
  · omega

end

/-- **The storage of a block is sound.**  Let the headers and the element have layouts
of types, and let `Geometry::new` accept the dimensions.  Then the header of the block,
every header of a virtual block and every slot are aligned in a block at an aligned
address, lie inside the allocation and do not overlap, and no value on the way to an
offset exceeds the size of the allocation, which is at most `isize::MAX`. -/
theorem storage_sound {m : Target} {elem : Layout} {config : Dims} {geo : Geometry}
    (hb : m.block.OfType) (hv : m.vblock.OfType) (he : elem.OfType)
    (hok : Geometry.new m elem config = .ok geo) :
    geo.config.ns = config.slotsPerVblock ∧ geo.config.nv = config.vblocksPerBlock ∧
    Sound m elem geo := by
  have h := Geometry.new_composed hok
  obtain ⟨hns, hnv, _, _⟩ := Geometry.new_ok hok
  refine ⟨hns, hnv, ?_⟩
  constructor
  · intro base hbase p _
    exact h.aligned hb hv he hbase p
  · intro p hp
    exact h.stop_le hb hv he hp
  · intro p q hp hq hne
    exact h.apart hv he hp hq hne
  · exact h.small hb
  · intro p hp x hx
    have hstop := h.stop_le hb hv he hp
    have hle : x ≤ p.stop m geo elem := by
      unfold Part.stop
      cases p with
      | header => exact absurd hx (by simp [Part.computed])
      | vblock i =>
        simp only [Part.computed, List.mem_cons, List.not_mem_nil, or_false] at hx
        simp only [Part.offset]
        omega
      | slot i j =>
        simp only [Part.computed, List.mem_cons, List.not_mem_nil, or_false] at hx
        simp only [Part.offset]
        omega
    omega

/-- Elements aligned beyond the cache-line padding of the headers. -/
theorem storage_sound_overaligned : ∃ geo,
    Geometry.new bits64 ⟨512, 256⟩ ⟨3, 2⟩ = .ok geo ∧ Sound bits64 ⟨512, 256⟩ geo := by
  obtain ⟨geo, hok⟩ : ∃ geo, Geometry.new bits64 ⟨512, 256⟩ ⟨3, 2⟩ = .ok geo := ⟨_, rfl⟩
  have hsound := storage_sound ⟨⟨3, rfl⟩, by decide⟩ ⟨⟨7, rfl⟩, by decide⟩ ⟨⟨8, rfl⟩, by decide⟩ hok
  exact ⟨geo, hok, hsound.2.2⟩

end V8
