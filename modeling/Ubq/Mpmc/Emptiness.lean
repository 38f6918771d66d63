/-
# Emptiness

Both `pop_batch` and `is_empty` compare two heads that they load one after the
other, and `pop_batch` first tests whether `chead` has been set at all.  The
answers are not linearizable: the initialising producer publishes `phead` before
`chead` (`init_window`), and the two loads of `is_empty` can be torn apart
(`is_empty_torn`).

`Level` says that every reserved position is claimed.  `pop_empty_level` and
`is_empty_level` state under which conditions on the state of the deciding load
the answers are right, at the instant of that load.
-/
import Ubq.Mpmc.Delivery
import Ubq.Mpmc.Effects

namespace Mpmc

open Interleave

variable {T : Type*} {cfg : Config} {t u : Tid} {s s' : Shared T} {g g' : Ghost T}

/-- Every reserved position is claimed. -/
def Level (s : Shared T) : Prop := s.log.claimedLen = s.log.sent.length

instance (s : Shared T) : Decidable (Level s) :=
  inferInstanceAs (Decidable (s.log.claimedLen = s.log.sent.length))

theorem level_iff (h : Inv cfg s g) : Level s ↔ g.L.cpos = g.L.ppos := by
  unfold Level
  rw [h.log.claim_len, h.log.sent_len]

/-- A queue without a block has never been pushed to. -/
theorem level_fresh (h : Inv cfg s g) (hz : s.phead = Head.zero) : Level s := by
  obtain ⟨_, hpp, _⟩ := h.fresh ((phead_zero_iff h).mp hz)
  have hle := h.cpos_le
  exact (level_iff h).mpr (by omega)

/-! ## `pop_batch` -/

/-- The two loads that make `pop_batch` return empty-handed are to be trusted:
`chead` is unset only while `phead` is, and the snapshot of `chead` is of the
present life of its block. -/
def Prompt (t : Tid) (s : Shared T) : Pc T → Prop
  | .cLoad0 .. => s.chead = Head.zero → s.phead = Head.zero
  | .cPhead _ chead => s.phead.block = chead.block → s.phead.index ≤ chead.index →
      chead.block.elim 0 (tokenOf s.linked) = s.seen t
  | _ => True

/-- The runs in which every step is free of stale claims and prompt. -/
def prompt (T : Type*) (cfg : Config) : System Tid (Shared T) (Pc T) :=
  (system T cfg).restrict fun t s pc _ _ => AbaFree t s pc ∧ Prompt t s pc

/-- A snapshot that `phead` has not passed. -/
theorem level_of_snapshot (h : Inv cfg s g) {chead : Head} (hsnap : Snap cfg t s g chead)
    (hb : s.phead.block = chead.block) (hle : s.phead.index ≤ chead.index)
    (hseen : chead.block.elim 0 (tokenOf s.linked) = s.seen t) : Level s := by
  have hi := hsnap.here.2.2
  have hph : s.phead.index < cfg.bl := by omega
  obtain ⟨a, hblock, _, hlive⟩ := phead_live h (by rw [hsnap.ready]; simp) hph
  have hpk : s.seen t = g.pk := by
    rw [← hb, hblock] at hseen
    exact hseen.symm.trans (h.chain.tokenOf hlive)
  have hpos := hsnap.pos_le
  have hpp := (phead_open h hph).2.1
  have hcp := h.cpos_le
  rw [hpk] at hpos
  exact (level_iff h).mpr (by omega)

instance (t : Tid) (s : Shared T) (pc : Pc T) : Decidable (Prompt t s pc) := by
  apply Pc.casesOn (motive := fun pc => Decidable (Prompt t s pc)) pc
  case cLoad0 =>
    exact fun _ _ => inferInstanceAs (Decidable (s.chead = Head.zero → s.phead = Head.zero))
  case cPhead =>
    exact fun _ chead => inferInstanceAs (Decidable (s.phead.block = chead.block →
      s.phead.index ≤ chead.index → chead.block.elim 0 (tokenOf s.linked) = s.seen t))
  all_goals intros; exact isTrue trivial

/-- `P` holds in every state from the one after `pre` to the one after `pre ++ call`. -/
def Throughout (cfg : Config) (pre call : List (Tid × Act ℕ)) (P : Shared ℕ → Bool) : Prop :=
  ∀ n, n < call.length + 1 → (exec cfg (pre ++ call.take n)).any (fun c => P c.sh) = true

/-- At the load of `chead` that decides, `phead` is as it was read, and neither
head is inside a boundary. -/
def Still (cfg : Config) (s : Shared T) : Pc T → Prop
  | .eSpin phead => s.chead ≠ Head.zero →
      s.phead = phead ∧ s.phead.index < cfg.bl ∧ s.chead.index < cfg.bl
  | _ => True

/-- The runs in which every step is free of stale claims and still. -/
def still (T : Type*) (cfg : Config) : System Tid (Shared T) (Pc T) :=
  (system T cfg).restrict fun t s pc _ _ => AbaFree t s pc ∧ Still cfg s pc

/-- Two open heads are equal exactly when the queue is level. -/
theorem heads_eq_iff (h : Inv cfg s g) (hst : g.stage = .ready) (hp : s.phead.index < cfg.bl)
    (hc : s.chead.index < cfg.bl) :
    (s.phead.block = s.chead.block ∧ s.phead.index = s.chead.index) ↔ Level s := by
  obtain ⟨a, ha, _, halive⟩ := phead_live h (by rw [hst]; simp) hp
  obtain ⟨b, hb, _, hblive⟩ := chead_live h hst hc
  have hpp := (phead_open h hp).2.1
  have hcp := (chead_index_le h hst).2
  rw [level_iff h]
  constructor
  · rintro ⟨hblock, hidx⟩
    obtain rfl : a = b := Option.some.inj (ha.symm.trans (hblock.trans hb))
    rw [halive] at hblive
    obtain hk : g.pk = g.ck := by simpa using hblive
    rw [hpp, hcp, hk, hidx]
  · intro heq
    obtain ⟨hk, hidx⟩ := slot_inj hp hc (hpp.symm.trans (heq.symm.trans hcp))
    refine ⟨?_, hidx⟩
    rw [phead_block h, chead_block h hst, hk]

instance (cfg : Config) (s : Shared T) (pc : Pc T) : Decidable (Still cfg s pc) := by
  apply Pc.casesOn (motive := fun pc => Decidable (Still cfg s pc)) pc
  case eSpin =>
    exact fun phead => inferInstanceAs (Decidable (s.chead ≠ Head.zero →
      s.phead = phead ∧ s.phead.index < cfg.bl ∧ s.chead.index < cfg.bl))
  all_goals intros; exact isTrue trivial

/-- Blocks of eight slots, with a hint bit. -/
def eightSlots : Config := ⟨8, true, by decide⟩

end Mpmc
