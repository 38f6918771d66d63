/-
# The packed index of the v8 queue

An index position `ridx` splits as `stride * token + off`: the offsets below
`cap` are slots, the offset `cap` is the sentinel that a thread installs while
it moves its head to the next block.  `word` is the packed form with the flag
bit.  The lemmas here say how `decode_index`, the sentinel test and the order
of packed words read in terms of `token` and `off`.
-/
import Ubq.V8.Machine
import Mathlib.Tactic.Ring

namespace V8

namespace Config

variable (cfg : Config)

theorem cap_pos : 0 < cfg.cap := Nat.mul_pos cfg.nv_pos cfg.ns_pos

theorem stride_eq : cfg.stride = cfg.cap + cfg.ns := by
  unfold stride cap
  ring

theorem cap_lt_stride : cfg.cap < cfg.stride := by
  have h := cfg.ns_pos
  rw [stride_eq]
  omega

theorem stride_pos : 0 < cfg.stride := Nat.lt_of_le_of_lt (Nat.zero_le _) cfg.cap_lt_stride

/-- The packed index of offset `off` in block `k`, with flag `f`. -/
def word (k off f : ℕ) : ℕ := 2 * (cfg.stride * k + off) + f

/-- The position of slot `o` of virtual block `v` of block `k`, sentinels not counted. -/
def pos (k v o : ℕ) : ℕ := k * cfg.cap + (v * cfg.ns + o)

/-- A slot of a vblock is a slot of the block. -/
theorem offset_lt_cap {v o : ℕ} (hv : v < cfg.nv) (ho : o < cfg.ns) :
    v * cfg.ns + o < cfg.cap := by
  have h1 : (v + 1) * cfg.ns ≤ cfg.nv * cfg.ns := Nat.mul_le_mul_right _ hv
  have h2 : (v + 1) * cfg.ns = v * cfg.ns + cfg.ns := by ring
  unfold cap
  omega

theorem vblock_lt {off : ℕ} (h : off < cfg.cap) : off / cfg.ns < cfg.nv :=
  (Nat.div_lt_iff_lt_mul cfg.ns_pos).mpr h

theorem offset_lt (off : ℕ) : off % cfg.ns < cfg.ns := Nat.mod_lt _ cfg.ns_pos

theorem vblock_offset (off : ℕ) : off / cfg.ns * cfg.ns + off % cfg.ns = off := by
  rw [Nat.mul_comm]
  exact Nat.div_add_mod off cfg.ns

/-- Block, vblock and slot of an offset name its position. -/
theorem pos_div_mod (k off : ℕ) : cfg.pos k (off / cfg.ns) (off % cfg.ns) = k * cfg.cap + off := by
  unfold pos
  rw [vblock_offset]

end Config

section Word

variable (cfg : Config) {k off f : ℕ}

@[simp] theorem word_div_two (hf : f < 2) : cfg.word k off f / 2 = cfg.stride * k + off := by
  unfold Config.word
  omega

@[simp] theorem word_mod_two (hf : f < 2) : cfg.word k off f % 2 = f := by
  unfold Config.word
  omega

theorem ridx_div_stride (h : off < cfg.stride) : (cfg.stride * k + off) / cfg.stride = k := by
  rw [Nat.mul_add_div cfg.stride_pos, Nat.div_eq_of_lt h, Nat.add_zero]

theorem ridx_div (h : off < cfg.stride) :
    (cfg.stride * k + off) / cfg.ns / (cfg.nv + 1) = k := by
  rw [Nat.div_div_eq_div_mul, Nat.mul_comm cfg.ns]
  exact ridx_div_stride cfg h

theorem ridx_mod_ns : (cfg.stride * k + off) % cfg.ns = off % cfg.ns := by
  have h : cfg.stride * k + off = off + cfg.ns * ((cfg.nv + 1) * k) := by
    unfold Config.stride
    ring
  rw [h, Nat.add_mul_mod_self_left]

theorem ridx_div_ns : (cfg.stride * k + off) / cfg.ns = (cfg.nv + 1) * k + off / cfg.ns := by
  have h : cfg.stride * k + off = off + cfg.ns * ((cfg.nv + 1) * k) := by
    unfold Config.stride
    ring
  rw [h, Nat.add_mul_div_left _ _ cfg.ns_pos]
  omega

theorem off_div_lt (h : off < cfg.stride) : off / cfg.ns < cfg.nv + 1 :=
  (Nat.div_lt_iff_lt_mul cfg.ns_pos).mpr h

theorem ridx_vblock (h : off < cfg.stride) :
    (cfg.stride * k + off) / cfg.ns % (cfg.nv + 1) = off / cfg.ns := by
  rw [ridx_div_ns, Nat.mul_add_mod, Nat.mod_eq_of_lt (off_div_lt cfg h)]

/-- `decode_index` finds block, vblock and slot. -/
theorem decodeIndex_eq (h : off < cfg.stride) :
    decodeIndex (cfg.stride * k + off) cfg.ns cfg.nv = (k, off / cfg.ns, off % cfg.ns) := by
  unfold decodeIndex
  rw [ridx_div cfg h, ridx_vblock cfg h, ridx_mod_ns]

/-- The sentinel region of a block starts at offset `cap`. -/
theorem div_eq_nv_iff (h : off < cfg.stride) : off / cfg.ns = cfg.nv ↔ cfg.cap ≤ off := by
  have hlt := off_div_lt cfg h
  have hle := Nat.le_div_iff_mul_le (k := cfg.ns) (x := cfg.nv) (y := off) cfg.ns_pos
  unfold Config.cap
  omega

/-- The sentinel is the vblock behind the last one. -/
theorem isSentinel_iff (h : off < cfg.stride) :
    isSentinel cfg (cfg.stride * k + off) = true ↔ cfg.cap ≤ off := by
  unfold isSentinel
  rw [decide_eq_true_iff, ridx_vblock cfg h, div_eq_nv_iff cfg h]

/-- Every index position splits in one way. -/
theorem ridx_split (ridx : ℕ) :
    ridx = cfg.stride * (ridx / cfg.stride) + ridx % cfg.stride ∧ ridx % cfg.stride < cfg.stride :=
  ⟨(Nat.div_add_mod ridx cfg.stride).symm, Nat.mod_lt _ cfg.stride_pos⟩

/-- An index in a later block is larger. -/
theorem ridx_lt_of_token_lt {k' off' : ℕ} (h : off < cfg.stride) (hk : k < k') :
    cfg.stride * k + off < cfg.stride * k' + off' := by
  have h1 : cfg.stride * (k + 1) ≤ cfg.stride * k' := Nat.mul_le_mul_left _ hk
  have h2 : cfg.stride * (k + 1) = cfg.stride * k + cfg.stride := by ring
  omega

/-- An index determines block and offset. -/
theorem ridx_inj {k' off' : ℕ} (h : off < cfg.stride) (h' : off' < cfg.stride)
    (heq : cfg.stride * k + off = cfg.stride * k' + off') : k = k' ∧ off = off' := by
  have hk : k = k' := by
    rw [← ridx_div_stride cfg (k := k) h, heq, ridx_div_stride cfg h']
  subst hk
  exact ⟨rfl, by omega⟩

end Word

/-- `k * cap` is monotone in the token, in the forms the proofs need. -/
theorem token_mul_le (cfg : Config) {j k : ℕ} (h : j < k) :
    j * cfg.cap + cfg.cap ≤ k * cfg.cap := by
  have h1 : (j + 1) * cfg.cap ≤ k * cfg.cap := Nat.mul_le_mul_right _ h
  have h2 : (j + 1) * cfg.cap = j * cfg.cap + cfg.cap := by ring
  omega

theorem token_succ_le (cfg : Config) {j k : ℕ} (h : j * cfg.cap + cfg.cap ≤ k * cfg.cap) :
    j < k := by
  have hcap := cfg.cap_pos
  by_contra hc
  have := Nat.mul_le_mul_right cfg.cap (Nat.le_of_not_lt hc)
  omega

theorem pos_lt_succ (cfg : Config) {k v o : ℕ} (hv : v < cfg.nv) (ho : o < cfg.ns) :
    cfg.pos k v o < k * cfg.cap + cfg.cap := by
  have := cfg.offset_lt_cap hv ho
  unfold Config.pos
  omega

theorem token_of_lt (cfg : Config) {j k p : ℕ} (h1 : j * cfg.cap ≤ p)
    (h2 : p < k * cfg.cap + cfg.cap) : j ≤ k := by
  by_contra hc
  have := token_mul_le cfg (j := k) (k := j) (by omega)
  omega

/-- The index installed by a reservation of `len` slots. -/
theorem reserveIndex_eq (cfg : Config) (k off len f : ℕ) :
    reserveIndex cfg k (off / cfg.ns) (off % cfg.ns) len f
      = cfg.word k (min (off + len) cfg.cap) f := by
  unfold reserveIndex Config.word
  rw [cfg.vblock_offset]

end V8
