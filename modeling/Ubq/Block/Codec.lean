/-
# Packed queue heads

A queue head is one word: the address of a page-aligned block with the slot index and,
if a bit is left, the `has_next` hint in its low bits.  `HeadCodec::new` derives the
masks of the three fields from the page size and the number of slots of a block.  The
MPMC queue and the SPMC queue have a codec each, over their own block type.

`Masks` says which bits the three masks have.  The fields do not overlap because the
index never needs more bits than the page has (`indexBits_le`), and `heads_round_trip`
is the consequence for the words.
-/
import Ubq.Block.Layout
import Mathlib.Tactic.Common

namespace Block

/-! ## The codec -/

/-- `HeadCodec`. -/
structure HeadCodec (w : ℕ) where
  blockLength : BitVec w
  pointerMask : BitVec w
  indexMask : BitVec w
  hasNextMask : BitVec w

/-- `page_size.trailing_zeros()`. -/
def Target.tagBits (m : Target) : ℕ := (BitVec.ofNat m.bits m.pageSize).ctz.toNat

/-- `usize::BITS - block_length.leading_zeros()`. -/
def indexBits {w : ℕ} (blockLength : BitVec w) : ℕ := w - blockLength.clz.toNat

/-- `HeadCodec::new` for blocks of `length` slots. -/
def HeadCodec.new (m : Target) (length : ℕ) : Except String (HeadCodec m.bits) :=
  let pageSize := BitVec.ofNat m.bits m.pageSize
  let blockLength := BitVec.ofNat m.bits length
  if ¬ indexBits blockLength ≤ m.tagBits then
    .error "the block index does not fit in the page-aligned pointer tag"
  else .ok {
    blockLength := blockLength
    pointerMask := ~~~(pageSize - 1#m.bits)
    indexMask := BitVec.allOnes m.bits >>> (m.bits - indexBits blockLength)
    hasNextMask := if indexBits blockLength < m.tagBits then
        1#m.bits <<< indexBits blockLength
      else 0#m.bits }

/-- `Block::capacity`. -/
def capacity (m : Target) (k : Kind) : Except String ℕ := do
  let layout ← BlockLayout.new m k
  return layout.slotsLen

/-- `HeadCodec::new` of the MPMC queue, whose slots are `Slot<T>`. -/
def mpmcCodec (m : Target) (k : Kind) : Except String (HeadCodec m.bits) := do
  HeadCodec.new m (← capacity m k)

/-- `SpmcBlock::length`. -/
def spmcLength (m : Target) (k : Kind) : Except String ℕ := capacity m k

/-- `HeadCodec::new` of the SPMC queue, whose slots are `T`. -/
def spmcCodec (m : Target) (k : Kind) : Except String (HeadCodec m.bits) := do
  HeadCodec.new m (← spmcLength m k)

/-- A queue head; the block is an address, and null is zero. -/
structure Head (w : ℕ) where
  block : BitVec w
  index : BitVec w
  hasNext : Bool
  deriving DecidableEq

namespace Head

variable {w : ℕ}

/-- `Head::zero`. -/
def zero : Head w := ⟨0#w, 0#w, false⟩

/-- `Head::from_usize`. -/
def fromUsize (value : BitVec w) (codec : HeadCodec w) : Head w where
  block := value &&& codec.pointerMask
  index := value &&& codec.indexMask
  hasNext := codec.hasNextMask != 0#w && value &&& codec.hasNextMask != 0#w

/-- `Head::to_usize`. -/
def toUsize (self : Head w) (codec : HeadCodec w) : BitVec w :=
  self.block ||| (self.index &&& codec.indexMask) |||
    (if self.hasNext then codec.hasNextMask else 0#w)

/-- The head as the codec can represent it: without the hint where no bit is left. -/
def encodable (self : Head w) (codec : HeadCodec w) : Head w :=
  { self with hasNext := self.hasNext && codec.hasNextMask != 0#w }

end Head

/-! ## The bits of the masks -/

/-- The index has the low `n` bits, the block those from `p` on, and bit `n` is the hint
if it is below `p`. -/
structure Masks {w : ℕ} (codec : HeadCodec w) (n p : ℕ) : Prop where
  n_le : n ≤ p
  p_lt : p < w
  length_lt : codec.blockLength.toNat < 2 ^ n
  pointer : ∀ i < w, codec.pointerMask.getLsbD i = !decide (i < p)
  index : ∀ i < w, codec.indexMask.getLsbD i = decide (i < n)
  hint : ∀ i < w, codec.hasNextMask.getLsbD i = (decide (n < p) && decide (i = n))

/-- The page size has one bit, so its trailing zeros are its exponent. -/
theorem Target.tagBits_eq (m : Target) : m.tagBits = m.pageBits := by
  have hbit : ∀ i, (BitVec.ofNat m.bits m.pageSize).getLsbD i = decide (m.pageBits = i) := by
    intro i
    rw [BitVec.getLsbD_ofNat, pageSize, Nat.testBit_two_pow]
    by_cases hi : m.pageBits = i
    · simp [← hi, m.lt]
    · simp [hi]
  have hne : BitVec.ofNat m.bits m.pageSize ≠ 0#m.bits := by
    intro hc
    have := hbit m.pageBits
    rw [hc] at this
    simp at this
  have htrue := BitVec.getLsbD_true_ctz_of_ne_zero hne
  rw [hbit] at htrue
  exact (of_decide_eq_true htrue).symm

theorem Target.pageSize_sub_one (m : Target) :
    BitVec.ofNat m.bits m.pageSize - 1#m.bits = BitVec.ofNat m.bits (2 ^ m.pageBits - 1) := by
  have hbits : 0 < m.bits := Nat.lt_of_le_of_lt (Nat.zero_le _) m.lt
  have hpage : m.pageSize < 2 ^ m.bits := Nat.pow_lt_pow_right (by decide) m.lt
  have hone : 1 < 2 ^ m.bits := Nat.one_lt_two_pow (Nat.ne_of_gt hbits)
  have hpos : 1 ≤ m.pageSize := Nat.one_le_two_pow
  apply BitVec.eq_of_toNat_eq
  rw [BitVec.toNat_sub_of_le]
  · simp only [BitVec.toNat_ofNat]
    rw [Nat.mod_eq_of_lt hpage, Nat.mod_eq_of_lt hone, Nat.mod_eq_of_lt]
    · rfl
    · exact Nat.lt_of_le_of_lt (Nat.sub_le _ _) hpage
  · rw [BitVec.le_def, BitVec.toNat_ofNat, BitVec.toNat_ofNat, Nat.mod_eq_of_lt hpage,
      Nat.mod_eq_of_lt hone]
    exact hpos

/-- **The index fits the tag.**  A block has fewer slots than its page has bytes. -/
theorem indexBits_le {m : Target} {length : ℕ} (hpos : 0 < length) (hlt : length < m.pageSize) :
    indexBits (BitVec.ofNat m.bits length) ≤ m.tagBits := by
  have hpage : m.pageSize < 2 ^ m.bits := Nat.pow_lt_pow_right (by decide) m.lt
  have hnat : (BitVec.ofNat m.bits length).toNat = length := by
    rw [BitVec.toNat_ofNat]
    exact Nat.mod_eq_of_lt (Nat.lt_trans hlt hpage)
  have hne : BitVec.ofNat m.bits length ≠ 0#m.bits := by
    intro hc
    rw [hc] at hnat
    simp at hnat
    omega
  have hle :=
    BitVec.two_pow_sub_clz_le_toNat_of_ne_zero (Nat.lt_of_le_of_lt (Nat.zero_le _) m.lt) hne
  rw [hnat] at hle
  have hexp := (Nat.pow_lt_pow_iff_right (by decide : 1 < 2)).mp (Nat.lt_of_le_of_lt hle hlt)
  rw [m.tagBits_eq]
  unfold indexBits
  omega

theorem masks_of_new {m : Target} {length : ℕ} {codec : HeadCodec m.bits}
    (h : HeadCodec.new m length = .ok codec) :
    codec.blockLength = BitVec.ofNat m.bits length ∧
    Masks codec (indexBits codec.blockLength) m.pageBits := by
  unfold HeadCodec.new at h
  dsimp only at h
  split at h
  · cases h
  rename_i hle
  rw [not_not, m.tagBits_eq] at hle
  obtain rfl := Except.ok.inj h
  refine ⟨rfl, hle, m.lt, BitVec.toNat_lt_two_pow_sub_clz, ?_, ?_, ?_⟩ <;> intro i hi
  · have hsub := m.pageSize_sub_one
    rw [BitVec.getLsbD_not, hsub, BitVec.getLsbD_ofNat, Nat.testBit_two_pow_sub_one]
    simp [hi]
  · rw [BitVec.getLsbD_ushiftRight, BitVec.getLsbD_allOnes]
    apply decide_eq_decide.mpr
    dsimp only
    omega
  · rw [m.tagBits_eq]
    split
    · rename_i hlt
      rw [BitVec.getLsbD_shiftLeft, BitVec.getLsbD_one]
      rw [Bool.eq_iff_iff]
      simp only [Bool.and_eq_true, Bool.not_eq_true', decide_eq_true_eq, decide_eq_false_iff_not]
      constructor
      · rintro ⟨⟨_, h1⟩, _, h2⟩
        exact ⟨hlt, by omega⟩
      · rintro ⟨_, rfl⟩
        exact ⟨⟨hi, by omega⟩, by omega, by omega⟩
    · rename_i hlt
      simp [hlt]

/-! ## Words and heads -/

section

variable {w n p : ℕ} {codec : HeadCodec w} {head : Head w} {i : ℕ}

/-- A head a queue may hold: its block is page-aligned, its index at most the number of
slots. -/
structure Head.Valid (codec : HeadCodec w) (p : ℕ) (head : Head w) : Prop where
  aligned : 2 ^ p ∣ head.block.toNat
  index_le : head.index ≤ codec.blockLength

theorem Head.Valid.block_bit (h : head.Valid codec p) (hi : i < p) :
    head.block.getLsbD i = false := by
  obtain ⟨a, ha⟩ := h.aligned
  rw [← BitVec.testBit_toNat, ha, Nat.testBit_two_pow_mul]
  simp [Nat.not_le.mpr hi]

theorem Head.Valid.index_bit (hm : Masks codec n p) (h : head.Valid codec p)
    (hi : n ≤ i) : head.index.getLsbD i = false := by
  rw [← BitVec.testBit_toNat]
  apply Nat.testBit_lt_two_pow
  calc head.index.toNat ≤ codec.blockLength.toNat := BitVec.le_def.mp h.index_le
    _ < 2 ^ n := hm.length_lt
    _ ≤ 2 ^ i := Nat.pow_le_pow_right (by decide) hi

/-- The bits of a packed head: the index below `n`, the hint at `n`, the block from `p` on. -/
theorem toUsize_bit (hm : Masks codec n p) (h : head.Valid codec p) (hi : i < w) :
    (head.toUsize codec).getLsbD i = if i < n then head.index.getLsbD i
      else if i < p then (head.hasNext && decide (i = n)) else head.block.getLsbD i := by
  have hle := hm.n_le
  have hhint : (if head.hasNext then codec.hasNextMask else 0#w).getLsbD i
      = (head.hasNext && (decide (n < p) && decide (i = n))) := by
    cases head.hasNext
    · simp
    · simp [hm.hint i hi]
  unfold Head.toUsize
  rw [BitVec.getLsbD_or, BitVec.getLsbD_or, BitVec.getLsbD_and, hhint, hm.index i hi]
  split
  · rename_i hin
    rw [h.block_bit (by omega)]
    simp [hin, Nat.ne_of_lt hin]
  · rename_i hin
    split
    · rename_i hip
      rw [h.block_bit hip]
      have hnp : n < p := by omega
      simp [hin, hnp]
    · rename_i hip
      have hne : ¬ (n < p ∧ i = n) := by omega
      simp only [hin, decide_false, Bool.and_false, Bool.or_false]
      rw [← Bool.decide_and, decide_eq_false hne, Bool.and_false, Bool.or_false]

theorem hasNextMask_ne_zero (hm : Masks codec n p) : codec.hasNextMask ≠ 0#w ↔ n < p := by
  have hlt := hm.p_lt
  constructor
  · intro hne
    by_contra hnp
    apply hne
    apply BitVec.eq_of_getLsbD_eq
    intro i hi
    rw [hm.hint i hi]
    simp [hnp]
  · intro hnp hc
    have hbit := hm.hint n (by omega)
    rw [hc] at hbit
    simp [hnp] at hbit

/-- **Unpacking undoes packing.** -/
theorem fromUsize_toUsize (hm : Masks codec n p) (h : head.Valid codec p) :
    Head.fromUsize (head.toUsize codec) codec = head.encodable codec := by
  have hle := hm.n_le
  have hblock : head.toUsize codec &&& codec.pointerMask = head.block := by
    apply BitVec.eq_of_getLsbD_eq
    intro i hi
    rw [BitVec.getLsbD_and, toUsize_bit hm h hi, hm.pointer i hi]
    by_cases hip : i < p
    · simp [hip, h.block_bit hip]
    · have hin : ¬ i < n := by omega
      simp [hip, hin]
  have hindex : head.toUsize codec &&& codec.indexMask = head.index := by
    apply BitVec.eq_of_getLsbD_eq
    intro i hi
    rw [BitVec.getLsbD_and, toUsize_bit hm h hi, hm.index i hi]
    by_cases hin : i < n
    · simp [hin]
    · rw [h.index_bit hm (by omega)]
      simp [hin]
  have hhint : (codec.hasNextMask != 0#w && head.toUsize codec &&& codec.hasNextMask != 0#w)
      = (head.hasNext && codec.hasNextMask != 0#w) := by
    by_cases hnp : n < p
    · have hlt := hm.p_lt
      have hbit : (head.toUsize codec &&& codec.hasNextMask).getLsbD n = head.hasNext := by
        rw [BitVec.getLsbD_and, toUsize_bit hm h (by omega), hm.hint n (by omega)]
        simp [hnp]
      have hmask : (codec.hasNextMask != 0#w) = true := by
        simpa using (hasNextMask_ne_zero hm).mpr hnp
      rw [hmask, Bool.true_and, Bool.and_true, Bool.eq_iff_iff, bne_iff_ne]
      constructor
      · intro hne
        by_contra hno
        apply hne
        apply BitVec.eq_of_getLsbD_eq
        intro i hi
        rw [BitVec.getLsbD_and, hm.hint i hi]
        by_cases hin : i = n
        · subst hin
          rw [toUsize_bit hm h hi]
          simp [hnp, Bool.eq_false_iff.mpr hno]
        · simp [hin]
      · intro hyes hc
        rw [hc, hyes] at hbit
        simp at hbit
    · have hmask : (codec.hasNextMask != 0#w) = false := by
        simpa using mt (hasNextMask_ne_zero hm).mp hnp
      rw [hmask, Bool.false_and, Bool.and_false]
  unfold Head.fromUsize Head.encodable
  rw [hblock, hindex, hhint]

/-- Packing loses nothing but a hint without a bit. -/
theorem toUsize_encodable (codec : HeadCodec w) (head : Head w) :
    (head.encodable codec).toUsize codec = head.toUsize codec := by
  unfold Head.toUsize Head.encodable
  by_cases hmask : codec.hasNextMask = 0#w
  · simp [hmask]
  · cases head.hasNext <;> simp [hmask]

end

/-! ## The two codecs -/

/-- The codec keeps apart the heads of blocks of `length` slots on pages of `2 ^ p` bytes. -/
structure HeadCodec.Faithful {w : ℕ} (codec : HeadCodec w) (length p : ℕ) : Prop where
  length_eq : codec.blockLength.toNat = length
  round_trip : ∀ head : Head w, head.Valid codec p →
    Head.fromUsize (head.toUsize codec) codec = head.encodable codec
  zero_iff : ∀ head : Head w, head.Valid codec p →
    (head.toUsize codec = 0#w ↔ head.encodable codec = Head.zero)
  injective : ∀ head head' : Head w, head.Valid codec p → head'.Valid codec p →
    head.toUsize codec = head'.toUsize codec → head.encodable codec = head'.encodable codec

theorem HeadCodec.new_faithful {m : Target} {length : ℕ} (hpos : 0 < length)
    (hlt : length < m.pageSize) :
    ∃ codec, HeadCodec.new m length = .ok codec ∧ codec.Faithful length m.pageBits := by
  obtain ⟨codec, hok⟩ : ∃ codec, HeadCodec.new m length = .ok codec := by
    unfold HeadCodec.new
    dsimp only
    rw [if_neg (not_not_intro (indexBits_le hpos hlt))]
    exact ⟨_, rfl⟩
  obtain ⟨hlen, hm⟩ := masks_of_new hok
  refine ⟨codec, hok, ?_, ?_, ?_, ?_⟩
  · have hpage : m.pageSize < 2 ^ m.bits := Nat.pow_lt_pow_right (by decide) m.lt
    rw [hlen, BitVec.toNat_ofNat]
    exact Nat.mod_eq_of_lt (Nat.lt_trans hlt hpage)
  · intro head h
    exact fromUsize_toUsize hm h
  · intro head h
    constructor
    · intro hz
      rw [← fromUsize_toUsize hm h, hz]
      simp [Head.fromUsize, Head.zero]
    · intro hz
      rw [← toUsize_encodable, hz]
      simp [Head.toUsize, Head.zero]
  · intro head head' h h' heq
    rw [← fromUsize_toUsize hm h, heq, fromUsize_toUsize hm h']

/-- **Packed heads round-trip.**  For every page size and all layouts that
`BlockLayout::new` accepts, both codecs pass their assertion.  Unpacking a packed head
gives back the block, the index and the hint, without the hint only where it has no bit;
the word is zero only for the null block, index zero and no hint; and heads that differ
in what the codec can represent have different words. -/
theorem heads_round_trip {m : Target} {k : Kind} {layout : BlockLayout}
    (hok : BlockLayout.new m k = .ok layout) :
    (∃ codec, mpmcCodec m k = .ok codec ∧ codec.Faithful layout.slotsLen m.pageBits) ∧
    (∃ codec, spmcCodec m k = .ok codec ∧ codec.Faithful layout.slotsLen m.pageBits) := by
  obtain ⟨hpos, hlt⟩ := BlockLayout.slotsLen_lt hok
  obtain ⟨codec, hnew, hfaithful⟩ := HeadCodec.new_faithful hpos hlt
  have hcap : capacity m k = .ok layout.slotsLen := by
    unfold capacity
    rw [hok]
    rfl
  constructor
  · refine ⟨codec, ?_, hfaithful⟩
    unfold mpmcCodec
    rw [hcap]
    exact hnew
  · refine ⟨codec, ?_, hfaithful⟩
    unfold spmcCodec spmcLength
    rw [hcap]
    exact hnew

/-- One-byte slots behind a header of 32 bytes, on pages of 64: the index takes all six
bits of the tag. -/
theorem heads_round_trip_bytes : ∃ codec : HeadCodec 64,
    spmcCodec ⟨64, 6, Nat.le_of_ble_eq_true rfl⟩
      ⟨⟨32, 32, ⟨5, rfl⟩, ⟨1, rfl⟩⟩, ⟨1, 1, ⟨0, rfl⟩, ⟨1, rfl⟩⟩, Nat.succ_pos 31⟩ = .ok codec ∧
    codec.Faithful 32 6 := by
  have hboth := heads_round_trip (m := ⟨64, 6, Nat.le_of_ble_eq_true rfl⟩)
    (k := ⟨⟨32, 32, ⟨5, rfl⟩, ⟨1, rfl⟩⟩, ⟨1, 1, ⟨0, rfl⟩, ⟨1, rfl⟩⟩, Nat.succ_pos 31⟩)
    (show BlockLayout.new _ _ = .ok ⟨64, 64, 32⟩ from rfl)
  exact hboth.2

end Block
