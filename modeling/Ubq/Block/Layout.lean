/-
# The page layout of a block

UBQ and kFIFO share one block type, `Block<S, H>`: a header with two pointers and the
protocol's own `H`, followed by as many slots of `S` as fit the page.  The layout of a
block is decided by `BlockLayout::new` from the layouts of the two types and the page
size; it panics for types that do not fit a page.

`Kind` is a pair of types as `BlockLayout::new` sees them.  Two facts about accepted
kinds carry the modules on the packed heads and on the layout cache: a block has
fewer slots than its page has bytes (`BlockLayout.slotsLen_lt`), and the stride and the
offset of the slots decide the layout and every assertion (`BlockLayout.new_congr`).
-/
import Mathlib.Algebra.Group.Nat.Defs
import Mathlib.Data.Nat.Basic

namespace Block

/-- The width of `usize` and the page size, which `page_size` has checked to be a power
of two. -/
structure Target where
  bits : ℕ
  pageBits : ℕ
  lt : pageBits < bits

namespace Target

variable (m : Target)

/-- The size of a page. -/
def pageSize : ℕ := 2 ^ m.pageBits

/-- `isize::MAX`. -/
def isizeMax : ℕ := 2 ^ (m.bits - 1) - 1

end Target

/-- The layout of a type: its alignment is a power of two that divides its size. -/
structure TypeLayout where
  size : ℕ
  align : ℕ
  pow : ∃ k, align = 2 ^ k
  dvd : align ∣ size

theorem TypeLayout.align_pos (l : TypeLayout) : 0 < l.align := by
  obtain ⟨k, hk⟩ := l.pow
  rw [hk]
  exact Nat.two_pow_pos k

theorem TypeLayout.align_le (l : TypeLayout) (h : 0 < l.size) : l.align ≤ l.size :=
  Nat.le_of_dvd h l.dvd

/-- A block type: the layout of its header, which holds the two pointers `next` and
`run` beside `H`, and that of a slot. -/
structure Kind where
  header : TypeLayout
  slot : TypeLayout
  header_pos : 0 < header.size

namespace Kind

variable (k : Kind)

/-- `SLOTS_OFFSET`: the end of the header, rounded up to the alignment of a slot. -/
def slotsOffset : ℕ := (k.header.size + k.slot.align - 1) / k.slot.align * k.slot.align

/-- `slot_stride`. -/
def slotStride : ℕ := if k.slot.size > k.slot.align then k.slot.size else k.slot.align

theorem header_le : k.header.size ≤ k.slotsOffset := by
  have hdiv := Nat.div_add_mod (k.header.size + k.slot.align - 1) k.slot.align
  have hmod := Nat.mod_lt (k.header.size + k.slot.align - 1) k.slot.align_pos
  unfold slotsOffset
  rw [Nat.mul_comm]
  omega

theorem align_le_stride : k.slot.align ≤ k.slotStride := by
  unfold slotStride
  split <;> omega

end Kind

/-- An allocation of one page, and the number of its slots. -/
structure BlockLayout where
  size : ℕ
  align : ℕ
  slotsLen : ℕ
  deriving DecidableEq

/-- `BlockLayout::new`, or the message it panics with. -/
def BlockLayout.new (m : Target) (k : Kind) : Except String BlockLayout :=
  if ¬ max k.header.align k.slot.align ≤ m.pageSize then
    .error "Block header or slot requires alignment greater than the system page size"
  else if ¬ k.slotsOffset < m.pageSize then
    .error "Block header leaves no room for slots in one system page"
  else
    let slotsLen := (m.pageSize - k.slotsOffset) / k.slotStride
    if ¬ 0 < slotsLen then .error "one slot does not fit in a system page"
    else if ¬ m.pageSize ≤ m.isizeMax + 1 - m.pageSize then
      .error "the system page size is not a valid allocation layout"
    else .ok ⟨m.pageSize, m.pageSize, slotsLen⟩

/-- What acceptance says, and what it takes. -/
theorem BlockLayout.new_eq_ok {m : Target} {k : Kind} {l : BlockLayout} :
    BlockLayout.new m k = .ok l ↔ max k.header.align k.slot.align ≤ m.pageSize ∧
      k.slotsOffset < m.pageSize ∧ 0 < (m.pageSize - k.slotsOffset) / k.slotStride ∧
      m.pageSize ≤ m.isizeMax + 1 - m.pageSize ∧
      l = ⟨m.pageSize, m.pageSize, (m.pageSize - k.slotsOffset) / k.slotStride⟩ := by
  unfold BlockLayout.new
  dsimp only
  constructor
  · intro h
    split at h
    · cases h
    rename_i h1
    split at h
    · cases h
    rename_i h2
    split at h
    · cases h
    rename_i h3
    split at h
    · cases h
    rename_i h4
    rw [not_not] at h1 h2 h3 h4
    exact ⟨h1, h2, h3, h4, (Except.ok.inj h).symm⟩
  · rintro ⟨h1, h2, h3, h4, rfl⟩
    rw [if_neg (not_not_intro h1), if_neg (not_not_intro h2), if_neg (not_not_intro h3),
      if_neg (not_not_intro h4)]

/-- A block has fewer slots than its page has bytes: the header takes some. -/
theorem BlockLayout.slotsLen_lt {m : Target} {k : Kind} {l : BlockLayout}
    (h : BlockLayout.new m k = .ok l) : 0 < l.slotsLen ∧ l.slotsLen < m.pageSize := by
  obtain ⟨_, hoff, hlen, _, rfl⟩ := BlockLayout.new_eq_ok.mp h
  refine ⟨hlen, ?_⟩
  have hpos := k.header_pos
  have hle := k.header_le
  have hdiv := Nat.div_le_self (m.pageSize - k.slotsOffset) k.slotStride
  show (m.pageSize - k.slotsOffset) / k.slotStride < m.pageSize
  omega

/-- Room for one slot bounds both alignments by the page. -/
theorem Kind.align_le_page {m : Target} {k : Kind} (hoff : k.slotsOffset < m.pageSize)
    (hlen : 0 < (m.pageSize - k.slotsOffset) / k.slotStride) :
    max k.header.align k.slot.align ≤ m.pageSize := by
  have hheader := k.header.align_le k.header_pos
  have hle := k.header_le
  have hslot := k.align_le_stride
  have hstride : k.slotStride ≤ m.pageSize - k.slotsOffset := by
    by_contra hlt
    rw [Nat.div_eq_of_lt (by omega)] at hlen
    exact absurd hlen (by decide)
  apply Nat.max_le.mpr
  constructor <;> omega

/-- **The key decides the layout.**  Kinds with one stride and one offset have the same
layout, and one of them is accepted exactly when the other is. -/
theorem BlockLayout.new_congr {m : Target} {k k' : Kind} (hoff : k.slotsOffset = k'.slotsOffset)
    (hstride : k.slotStride = k'.slotStride) {l : BlockLayout} :
    BlockLayout.new m k = .ok l ↔ BlockLayout.new m k' = .ok l := by
  rw [BlockLayout.new_eq_ok, BlockLayout.new_eq_ok, hoff, hstride]
  constructor
  · rintro ⟨_, h2, h3, h4, rfl⟩
    exact ⟨k'.align_le_page h2 h3, h2, h3, h4, rfl⟩
  · rintro ⟨_, h2, h3, h4, rfl⟩
    refine ⟨k.align_le_page ?_ ?_, h2, h3, h4, rfl⟩
    · rwa [hoff]
    · rwa [hoff, hstride]

end Block
