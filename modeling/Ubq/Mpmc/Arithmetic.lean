/-
# The additions of `pop_batch`

`pop_batch` adds the size of the request to an index: once when it proposes a new
`chead`, and once more at the end of its boundary walk.  The request is clamped to
the producer frontier only where both heads name one block; under `has_next`, or
with the producer in another block, the size of the caller is added as it is.

`sums` lists the additions a step makes.  The machine computes them in `ℕ`, so
the sums of a state whose past had none beyond `usize::MAX` are those of the code,
and one beyond it is an overflow: a panic under overflow checks, and without them
an index that is reduced modulo the word.

What a request must meet is a bound on its size alone, `fitting`.  Under it the
sums of every run stay within a word; this needs no more than the ranges of the
two head indices and of the locals of `pop_batch`, whatever the heads point at, so
it holds with address reuse as well.
-/
import Ubq.Mpmc.Safety

namespace Mpmc

open Interleave

variable {T : Type*} {cfg : Config} {t : Tid} {s s' : Shared T} {m : ℕ} {pc : Pc T} {c : Conf T}
variable {q : Pop} {chead new : Head} {sched : List (Tid × Act T)}

/-! ## Runs on given schedules -/

/-- Run a schedule of the queue from the start. -/
def exec (cfg : Config) (sched : List (Tid × Act T)) : Option (Conf T) :=
  System.runs (step cfg) sched (system T cfg).start

theorem exec_reachable (h : exec cfg sched = some c) : (system T cfg).Reachable c :=
  System.runs_reachable .start h

instance (t : Tid) (s : Shared T) (pc : Pc T) : Decidable (AbaFree t s pc) := by
  cases pc
  case cCas q chead new =>
    exact inferInstanceAs (Decidable (s.chead = chead → chead.hasNext = false →
      chead.block.elim 0 (tokenOf s.linked) = s.seen t))
  all_goals exact isTrue trivial

/-- Run a schedule, giving up at a step that `ok` forbids. -/
def execOf (cfg : Config) (ok : Tid → Shared T → Pc T → Shared T → Pc T → Prop)
    [∀ t s p s' p', Decidable (ok t s p s' p')] (sched : List (Tid × Act T)) : Option (Conf T) :=
  System.runs (System.guarded (step cfg) ok) sched (system T cfg).start

theorem execOf_reachable {ok : Tid → Shared T → Pc T → Shared T → Pc T → Prop}
    [∀ t s p s' p', Decidable (ok t s p s' p')]
    (h : execOf cfg ok sched = some c) : ((system T cfg).restrict ok).Reachable c :=
  System.runs_guarded h

/-- Thread `t` takes `n` steps. -/
def steps (t : Tid) (n : ℕ) : List (Tid × Act T) := List.replicate n (t, .run)

/-- Thread `t` calls `op` and then takes `n` steps. -/
def calls (t : Tid) (op : Op T) (n : ℕ) : List (Tid × Act T) := (t, .call op) :: steps t n

/-- Blocks of two slots, with a hint bit. -/
def twoSlots : Config := ⟨2, true, by decide⟩

/-! ## The sums -/

/-- The sum behind the head that the top of the reservation loop proposes. -/
def proposed (cfg : Config) (q : Pop) (chead : Head) : List ℕ :=
  if chead.index ≠ cfg.bl ∧ chead.hasNext then [chead.index + q.len] else []

/-- The additions of `usize` values that a step of `pop_batch` makes. -/
def sums (cfg : Config) (s : Shared T) : Pc T → List ℕ
  | .cReload q => proposed cfg q s.chead
  | .cPhead q chead =>
    if s.phead.block = chead.block then
      if min (s.phead.index - chead.index) q.len = 0 then []
      else [chead.index + min (s.phead.index - chead.index) q.len]
    else [chead.index + q.len]
  -- a CAS that fails goes to the top of the loop with the head it has read
  | .cCas q _ _ => proposed cfg q s.chead
  | .cStoreP w | .cStoreN w => [w.index + w.remaining]
  | _ => []

/-- The largest `usize` of a 64-bit target. -/
def usizeMax : ℕ := 2 ^ 64 - 1

/-- **An oversized request wraps.**  Two blocks of two slots hold three values and
one has been popped, so `chead` is at index 1 and carries its hint.  A request of
`usize::MAX` values then adds 1 to `usize::MAX`; without overflow checks the index
it installs is 0, behind the old one. -/
theorem oversized_request_wraps : ∃ (c : Conf ℕ) (q : Pop),
    (system ℕ twoSlots).Reachable c ∧ c.pc 1 = .cReload q ∧ q.size = usizeMax ∧
    sums twoSlots c.sh (c.pc 1) = [usizeMax + 1] ∧ c.sh.chead.index = 1 ∧
    min twoSlots.bl ((usizeMax + 1) % (usizeMax + 1)) < c.sh.chead.index := by
  obtain ⟨c, hexec, hpc, hidx, hnext⟩ : ∃ c, exec twoSlots
      (calls 0 (.pushBatch [7, 8, 9]) 2 ++ [(0, .alloc [100])] ++ steps 0 3 ++
        [(0, .alloc [101])] ++ steps 0 11 ++ calls 1 (.popBatch 1 1) 7 ++
        calls 1 (.popBatch usizeMax 0) 1) = some c ∧
      c.pc 1 = .cReload ⟨usizeMax, 0, usizeMax⟩ ∧ c.sh.chead.index = 1 ∧
      c.sh.chead.hasNext = true := ⟨_, rfl, rfl, by decide +kernel, by decide +kernel⟩
  refine ⟨c, _, exec_reachable hexec, hpc, rfl, ?_, hidx, ?_⟩
  · rw [hpc]
    simp only [sums, proposed, hidx, hnext]
    decide
  · rw [hidx]
    decide

/-! ## Requests that fit -/

/-- The calls of `pop_batch` leave room for a block above their size.  The size is
that of the caller; a request that the code clamps to a smaller one counts as well. -/
def Fitting (cfg : Config) (m : ℕ) : Pc T → Prop
  | .cLoad0 size _ => size + cfg.bl ≤ m + 1
  | _ => True

instance (pc : Pc T) : Decidable (Fitting cfg m pc) := by
  apply Pc.casesOn (motive := fun pc => Decidable (Fitting cfg m pc)) pc
  case cLoad0 => exact fun size _ => inferInstanceAs (Decidable (size + cfg.bl ≤ m + 1))
  all_goals intros; exact isTrue trivial

/-- The runs in which every request fits. -/
def fitting (T : Type*) (cfg : Config) (m : ℕ) : System Tid (Shared T) (Pc T) :=
  (system T cfg).restrict fun _ _ _ _ pc' => Fitting cfg m pc'

/-- The heads stay within their blocks. -/
structure InRange (cfg : Config) (s : Shared T) : Prop where
  phead : s.phead.index ≤ cfg.bl
  chead : s.chead.index ≤ cfg.bl

/-- The length that is still asked for. -/
def Pop.Fits (cfg : Config) (m : ℕ) (q : Pop) : Prop := 0 < q.len ∧ q.len + cfg.bl ≤ m + 1

/-- The boundary walk of `pop_batch` keeps its sums small. -/
structure PopWalk.Fits (cfg : Config) (m : ℕ) (w : PopWalk) : Prop where
  phead : w.phead.index ≤ cfg.bl
  index : w.index < cfg.bl
  remaining : w.remaining + cfg.bl ≤ m + 1

/-- The ranges of the locals. -/
def Fits (cfg : Config) (m : ℕ) : Pc T → Prop
  | .pStore w _ => w.index + w.remaining ≤ cfg.bl
  | .cLoad0 size _ => 0 < size ∧ size + cfg.bl ≤ m + 1
  | .cReload q => q.Fits cfg m
  | .cPhead q chead => q.Fits cfg m ∧ chead.index < cfg.bl
  | .cCas q chead new => q.Fits cfg m ∧ chead.index < cfg.bl ∧
      new.index = min cfg.bl (chead.index + q.len)
  | .cPost q chead _ | .cWalk q chead => q.Fits cfg m ∧ chead.index < cfg.bl
  | .cRevert q chead _ phead => q.Fits cfg m ∧ chead.index < cfg.bl ∧ phead.index ≤ cfg.bl
  | .cNext w | .cSpin w | .cNext2 w | .cStoreP w => w.Fits cfg m
  | .cStoreN w => w.Fits cfg m ∧ w.index + w.remaining ≤ cfg.bl
  | _ => True

/-- The result of a step is in range. -/
def Bounded (cfg : Config) (m : ℕ) (r : Shared T × Pc T) : Prop := InRange cfg r.1 ∧ Fits cfg m r.2

/-! ### Pieces of the source -/

theorem InRange.of_heads (h : InRange cfg s) (hp : s'.phead = s.phead) (hc : s'.chead = s.chead) :
    InRange cfg s' :=
  ⟨hp ▸ h.phead, hc ▸ h.chead⟩

theorem fits_pushLoop (p : Push T) (phead : Head) : Fits cfg m (pushLoop cfg p phead) := by
  unfold pushLoop
  split
  · trivial
  · split <;> trivial

theorem fits_grown (p : Push T) (phead : Head) (need : ℕ) :
    Fits cfg m (grown cfg p phead need) := by
  unfold grown
  split <;> trivial

theorem fits_fillOn (f : Fill T) : Fits cfg m (fillOn cfg f) := by
  unfold fillOn
  split
  · split <;> trivial
  · trivial

theorem fits_walkOn (w : PushWalk T) (next : Option Addr) : Fits cfg m (walkOn cfg w next) := by
  unfold walkOn
  split
  · show w.index + w.remaining ≤ cfg.bl
    omega
  · trivial

theorem fits_popLoop (hq : q.Fits cfg m) (hc : chead.index ≤ cfg.bl) :
    Fits cfg m (popLoop cfg q chead : Pc T) := by
  unfold popLoop popLoopWith
  split
  · exact hq
  · have hlt : chead.index < cfg.bl := by omega
    split
    · exact ⟨hq, hlt, rfl⟩
    · exact ⟨hq, hlt⟩

theorem fits_popWalkOn {w : PopWalk} (hw : w.Fits cfg m) (next : Option Addr) :
    Fits cfg m (popWalkOn cfg w next : Pc T) := by
  have hrem := hw.remaining
  unfold popWalkOn
  split
  · exact ⟨hw, by omega⟩
  · refine ⟨hw.phead, cfg.bl_pos, ?_⟩
    show w.remaining - (cfg.bl - w.index) + cfg.bl ≤ m + 1
    omega

section

variable (h : InRange cfg s)

include h

theorem bounded_iterOn (it : Iter T) : Bounded cfg m (iterOn s t it) := by
  unfold iterOn
  split
  · exact ⟨h.of_heads rfl rfl, trivial⟩
  · exact ⟨h, trivial⟩

theorem bounded_claimedOn (hq : q.Fits cfg m)
    (hc : chead.index < cfg.bl) : Bounded cfg m (claimedOn cfg s t q chead new) := by
  unfold claimedOn
  split
  · exact ⟨h, hq, hc⟩
  · exact bounded_iterOn h _

theorem bounded_settled {w : PopWalk} {hd : Head} {len : ℕ}
    (hi : hd.index ≤ cfg.bl) : Bounded cfg m (settled cfg t s w hd len) := by
  refine bounded_iterOn ?_ _
  exact ⟨h.phead, hi⟩

theorem bounded_iterRead (it : Iter T) (a : Addr) : Bounded cfg m (iterRead cfg s it a) := by
  unfold iterRead
  split
  · exact ⟨h, trivial⟩
  · split <;> exact ⟨h, trivial⟩

theorem bounded_pushed (r : PushRet T) : Bounded cfg m (pushed cfg s t r) := by
  cases r with
  | user items => exact ⟨h.of_heads rfl rfl, trivial⟩
  | fill q chead => exact bounded_iterOn h _

theorem bounded_reserved (p : Push T) (phead : Head) :
    Bounded cfg m (reserved cfg t s p phead) := by
  refine ⟨⟨Nat.min_le_right _ _, h.chead⟩, ?_⟩
  show Fits cfg m (if _ then _ else _)
  split
  · trivial
  · exact fits_fillOn _

theorem bounded_deref {p : Option Addr} {k : Addr → Shared T × Pc T}
    (hk : ∀ a, Bounded cfg m (k a)) : Post (Bounded cfg m) (deref s p k) :=
  deref_post (fun _ => ⟨h, trivial⟩) fun a _ => hk a

end

theorem give_heads (s : Shared T) (self other : List Addr) :
    (s.give self other).1.phead = s.phead ∧ (s.give self other).1.chead = s.chead := by
  unfold Shared.give
  split <;> exact ⟨rfl, rfl⟩

theorem newChain_heads (s : Shared T) (as : List Addr) :
    (s.newChain as).phead = s.phead ∧ (s.newChain as).chead = s.chead := by
  unfold Shared.newChain
  split <;> exact ⟨rfl, rfl⟩

/-! ### Steps -/

/-- Program counters of a `UBQIter`. -/
def Pc.iterating : Pc T → Bool
  | .iRead .. | .iNext .. | .iConsume .. | .iReset .. | .iPool .. | .iFree .. => true
  | _ => false

section

variable (h : InRange cfg s)

include h

theorem call_bounded (op : Op T) :
    Post (fun r => Fitting cfg m r.2 → Bounded cfg m r) (step cfg t (.call op) s .idle) := by
  cases op with
  | pushBatch items =>
    simp only [step, stepWith]
    split
    · exact fun _ => ⟨h.of_heads rfl rfl, trivial⟩
    · exact fun _ => ⟨h, trivial⟩
  | popBatch size keep =>
    simp only [step, stepWith]
    split
    · exact fun _ => ⟨h.of_heads rfl rfl, trivial⟩
    · exact fun hfit => ⟨h, by omega, hfit⟩
  | isEmpty => exact fun _ => ⟨h, trivial⟩

theorem push_bounded (hl : Fits cfg m pc)
    (hpc : pc.popping = false) : Post (Bounded cfg m) (step cfg t .run s pc) := by
  cases pc with
  | pLoad p =>
    simp only [step, stepWith]
    split
    · exact ⟨h, trivial⟩
    · exact ⟨h, fits_pushLoop _ _⟩
  | pInitSwap p =>
    simp only [step, stepWith]
    split
    · exact ⟨h, trivial⟩
    · exact ⟨h.of_heads rfl rfl, trivial⟩
  | pInitCas p root =>
    simp only [step, stepWith]
    split
    · exact ⟨⟨Nat.zero_le _, h.chead⟩, trivial⟩
    · exact ⟨h, fits_pushLoop _ _⟩
  | pInitStore p root => exact ⟨⟨h.phead, Nat.zero_le _⟩, fits_pushLoop _ _⟩
  | pReload p => exact ⟨h, fits_pushLoop _ _⟩
  | pSwap p phead need =>
    simp only [step, stepWith]
    split
    · exact ⟨h, fits_grown _ _ _⟩
    · rename_i a ha
      obtain ⟨h1, h2⟩ := give_heads { s with pool := none } p.blocks [a]
      exact ⟨h.of_heads h1 h2, fits_grown _ _ _⟩
  | pCas p phead =>
    simp only [step, stepWith]
    split
    · exact bounded_reserved h p phead
    · exact ⟨h, fits_pushLoop _ _⟩
  | pNext w =>
    refine bounded_deref h fun a => ?_
    split
    · exact ⟨h, trivial⟩
    · exact ⟨h, fits_walkOn _ _⟩
  | pLink w => exact bounded_deref h fun a => ⟨h.of_heads rfl rfl, fits_walkOn _ _⟩
  | pStore w next => exact ⟨⟨hl, h.chead⟩, fits_fillOn _⟩
  | pWait f =>
    refine bounded_deref h fun a => ?_
    split <;> exact ⟨h, trivial⟩
  | pWrite f next => exact bounded_deref h fun a => ⟨h.of_heads rfl rfl, fits_fillOn _⟩
  | pDrop p =>
    simp only [step, stepWith]
    split
    · exact bounded_pushed h p.ret
    · exact ⟨h.of_heads rfl rfl, trivial⟩
  | eLoad =>
    simp only [step, stepWith]
    split
    · exact ⟨h.of_heads rfl rfl, trivial⟩
    · exact ⟨h, trivial⟩
  | eSpin phead =>
    simp only [step, stepWith]
    split
    · exact ⟨h, trivial⟩
    · exact ⟨h.of_heads rfl rfl, trivial⟩
  | idle | fault | pInitAlloc | pAlloc => trivial
  | _ => simp [Pc.popping] at hpc

/-- The request is clamped where both heads name one block, and raw elsewhere. -/
theorem cPhead_bounded {q : Pop} {chead : Head}
    (hl : Fits cfg m (.cPhead q chead : Pc T)) :
    Post (Bounded cfg m) (step cfg t .run s (.cPhead q chead)) := by
  obtain ⟨⟨hpos, hfit⟩, hlt⟩ := hl
  simp only [step, stepWith]
  split
  · split
    · exact ⟨h.of_heads rfl rfl, trivial⟩
    · refine ⟨h, ⟨?_, ?_⟩, hlt, rfl⟩
      · show 0 < min (s.phead.index - chead.index) q.len
        omega
      · show min (s.phead.index - chead.index) q.len + cfg.bl ≤ m + 1
        omega
  · exact ⟨h, ⟨hpos, hfit⟩, hlt, rfl⟩

theorem cCas_bounded {q : Pop} {chead new : Head}
    (hl : Fits cfg m (.cCas q chead new : Pc T)) :
    Post (Bounded cfg m) (step cfg t .run s (.cCas q chead new)) := by
  obtain ⟨hq, hlt, hnew⟩ := hl
  have hset : new.index ≤ cfg.bl := hnew ▸ Nat.min_le_left _ _
  simp only [step, stepWith]
  split
  · split
    · refine bounded_claimedOn ?_ hq hlt
      exact ⟨h.phead, hset⟩
    · exact ⟨⟨h.phead, hset⟩, hq, hlt⟩
  · exact ⟨h.of_heads rfl rfl, fits_popLoop hq h.chead⟩

theorem cRevert_bounded {q : Pop} {chead new phead : Head}
    (hl : Fits cfg m (.cRevert q chead new phead : Pc T)) :
    Post (Bounded cfg m) (step cfg t .run s (.cRevert q chead new phead)) := by
  obtain ⟨⟨hpos, hfit⟩, hci, hpi⟩ := hl
  -- whether or not the revert wins, `chead` stays within its block
  have hrev : InRange cfg (if s.chead = new.word cfg then
      { s with chead := { phead with hasNext := false } } else s) := by
    split
    · exact ⟨h.phead, hpi⟩
    · exact h
  simp only [step, stepWith]
  split
  · exact ⟨hrev.of_heads rfl rfl, trivial⟩
  · refine ⟨hrev, ⟨?_, ?_⟩, hci⟩
    · show 0 < min (phead.index - chead.index) q.len
      omega
    · show min (phead.index - chead.index) q.len + cfg.bl ≤ m + 1
      omega

theorem claim_bounded (hl : Fits cfg m pc)
    (hpc : pc.popping = true) (hpc' : pc.iterating = false) :
    Post (Bounded cfg m) (step cfg t .run s pc) := by
  cases pc with
  | cLoad0 size keep =>
    simp only [step, stepWith]
    split
    · exact ⟨h.of_heads rfl rfl, trivial⟩
    · exact ⟨h, hl⟩
  | cReload q => exact ⟨h.of_heads rfl rfl, fits_popLoop hl h.chead⟩
  | cPhead q chead => exact cPhead_bounded h hl
  | cCas q chead new => exact cCas_bounded h hl
  | cPost q chead new =>
    obtain ⟨hq, hci⟩ := hl
    simp only [step, stepWith]
    split
    · split
      · exact ⟨h, hq, hci, h.phead⟩
      · exact ⟨h, trivial⟩
    · exact bounded_claimedOn h hq hci
  | cRevert q chead new phead => exact cRevert_bounded h hl
  | cWalk q chead =>
    obtain ⟨hq, hci⟩ := hl
    exact ⟨h, h.phead, hci, hq.2⟩
  | cNext w =>
    refine bounded_deref h fun a => ⟨h, ?_⟩
    split
    · split <;> exact hl
    · exact fits_popWalkOn hl _
  | cSpin w =>
    have hw : ({ w with phead := s.phead } : PopWalk).Fits cfg m :=
      ⟨h.phead, hl.index, hl.remaining⟩
    refine ⟨h, ?_⟩
    split
    · split <;> exact hw
    · exact hw
  | cNext2 w => exact bounded_deref h fun a => ⟨h, fits_popWalkOn hl _⟩
  | cStoreP w => exact bounded_settled h ((Nat.min_le_left _ _).trans hl.phead)
  | cStoreN w => exact bounded_settled h hl.2
  | iRead | iNext | iConsume | iReset | iPool | iFree => simp [Pc.iterating] at hpc'
  | _ => simp [Pc.popping] at hpc

theorem iter_bounded (hpc : pc.iterating = true) :
    Post (Bounded cfg m) (step cfg t .run s pc) := by
  cases pc with
  | iRead it =>
    refine bounded_deref h fun a => ?_
    dsimp only
    split
    · exact ⟨h, trivial⟩
    · refine bounded_iterRead ?_ _ _
      exact h.of_heads rfl rfl
    · exact ⟨h, trivial⟩
    · refine bounded_iterRead ?_ _ _
      exact h.of_heads rfl rfl
  | iNext it => exact bounded_deref h fun a => ⟨h, trivial⟩
  | iConsume it a =>
    simp only [step, stepWith]
    split
    · split <;> exact ⟨h.of_heads rfl rfl, trivial⟩
    · refine bounded_iterOn ?_ _
      exact h.of_heads rfl rfl
  | iReset it a => exact ⟨h.of_heads rfl rfl, trivial⟩
  | iPool it a =>
    simp only [step, stepWith]
    split
    · refine bounded_iterOn ?_ _
      exact h.of_heads rfl rfl
    · exact ⟨h, trivial⟩
  | iFree it a =>
    refine bounded_iterOn ?_ _
    exact h.of_heads rfl rfl
  | _ => simp [Pc.iterating] at hpc

/-- **A step keeps the ranges**, if the request it may start fits. -/
theorem step_bounded (hl : Fits cfg m pc) {act : Act T}
    {r : Shared T × Pc T} (hs : step cfg t act s pc = some r) (hfit : Fitting cfg m r.2) :
    Bounded cfg m r := by
  revert hfit
  apply Post.of hs
  apply step_cases
  case call => exact fun op _ _ => call_bounded h op
  case run =>
    intro _
    refine Post.mono ?_ fun _ hb _ => hb
    cases hpc : pc.popping with
    | false => exact push_bounded h hl hpc
    | true =>
      cases hpc' : pc.iterating with
      | false => exact claim_bounded h hl hpc hpc'
      | true => exact iter_bounded h hpc'
  case pCas => exact fun p phead _ _ _ => ⟨h, fits_pushLoop _ _⟩
  case cCas =>
    rintro q chead new - rfl -
    exact ⟨h.of_heads rfl rfl, fits_popLoop hl.1 h.chead⟩
  case pInitAlloc => exact fun p a _ _ _ _ => ⟨h.of_heads rfl rfl, trivial⟩
  case pAlloc =>
    intro as p phead need _ _ _ _ _ _
    obtain ⟨h1, h2⟩ := give_heads (s.newChain as) p.blocks as
    obtain ⟨h3, h4⟩ := newChain_heads s as
    exact ⟨h.of_heads (h1.trans h3) (h2.trans h4), trivial⟩

end

/-- The ranges hold in every run of fitting requests. -/
theorem run_bounded (hc : (fitting T cfg m).Reachable c) :
    InRange cfg c.sh ∧ ∀ u, Fits cfg m (c.pc u) := by
  obtain ⟨_, h⟩ := System.rely_guarantee (γ := Unit) (fitting T cfg m)
    (fun s _ => InRange cfg s) (fun _ _ _ pc => Fits cfg m pc) (fun _ _ _ _ _ => True)
    ⟨(), ⟨Nat.zero_le _, Nat.zero_le _⟩, fun _ => trivial⟩
    (fun t s _ pc s' pc' hI hl hs => by
      obtain ⟨⟨act, hs⟩, hfit⟩ := hs
      obtain ⟨hI', hl'⟩ := step_bounded hI hl hs hfit
      exact ⟨(), hI', hl', fun _ _ => trivial⟩)
    (fun _ _ _ _ _ _ _ _ _ hl => hl) hc
  exact h

/-! ### The sums -/

theorem proposed_le (hq : q.Fits cfg m) (hc : chead.index ≤ cfg.bl) :
    ∀ x ∈ proposed cfg q chead, x ≤ m := by
  intro x hx
  have hfit := hq.2
  unfold proposed at hx
  split at hx
  · rw [List.mem_singleton] at hx
    omega
  · cases hx

theorem sums_le (h : InRange cfg s) (hl : Fits cfg m pc) : ∀ x ∈ sums cfg s pc, x ≤ m := by
  intro x hx
  cases pc with
  | cReload q => exact proposed_le hl h.chead x hx
  | cCas q chead new => exact proposed_le hl.1 h.chead x hx
  | cPhead q chead =>
    obtain ⟨⟨_, hfit⟩, hlt⟩ := hl
    simp only [sums] at hx
    split at hx
    · split at hx
      · cases hx
      · rw [List.mem_singleton] at hx
        omega
    · rw [List.mem_singleton] at hx
      omega
  | cStoreP w =>
    have hidx := hl.index
    have hrem := hl.remaining
    rw [sums, List.mem_singleton] at hx
    omega
  | cStoreN w =>
    have hidx := hl.1.index
    have hrem := hl.1.remaining
    rw [sums, List.mem_singleton] at hx
    omega
  | _ => simp [sums] at hx

/-- The reservation CAS, when it wins, moves `chead` forward in its block. -/
theorem cas_forward (hl : Fits cfg m (.cCas q chead new : Pc T))
    (hwin : s.chead = chead) {r : Shared T × Pc T}
    (hs : step cfg t .run s (.cCas q chead new) = some r) :
    s.chead.index < r.1.chead.index ∧ r.1.chead.index ≤ cfg.bl := by
  obtain ⟨⟨hpos, _⟩, hlt, hnew⟩ := hl
  have hset : r.1.chead = new.word cfg := by
    simp only [step, stepWith, if_pos hwin] at hs
    split at hs <;> cases hs
    · unfold claimedOn iterOn
      split
      · rfl
      · split <;> rfl
    · rfl
  rw [hset, hwin]
  show chead.index < new.index ∧ new.index ≤ cfg.bl
  omega

/-- **The additions of fitting requests stay within a word.**  If every call of
`pop_batch` asks for at most `usize::MAX + 1 - BL` values, then in every state of the
run no addition of a thread exceeds `usize::MAX`, and a reservation CAS that wins
installs an index above the old one and at most the block length. -/
theorem fitting_requests_advance (hc : (fitting T cfg m).Reachable c) (t : Tid) :
    (∀ x ∈ sums cfg c.sh (c.pc t), x ≤ m) ∧
    ∀ q chead new r, c.pc t = .cCas q chead new → c.sh.chead = chead →
      step cfg t .run c.sh (c.pc t) = some r →
      c.sh.chead.index < r.1.chead.index ∧ r.1.chead.index ≤ cfg.bl := by
  obtain ⟨hI, hL⟩ := run_bounded hc
  refine ⟨sums_le hI (hL t), fun q chead new r hpc hwin hs => ?_⟩
  have hl := hL t
  rw [hpc] at hl hs
  exact cas_forward hl hwin hs

/-- The largest request that fits, on the state in which `usize::MAX` does not. -/
theorem fitting_requests_advance_largest : ∃ (c : Conf ℕ) (q : Pop) (chead new : Head),
    (fitting ℕ twoSlots usizeMax).Reachable c ∧ c.pc 1 = .cCas q chead new ∧
    q.size + twoSlots.bl = usizeMax + 1 ∧ (∀ x ∈ sums twoSlots c.sh (c.pc 1), x ≤ usizeMax) ∧
    ∃ r, step twoSlots 1 .run c.sh (c.pc 1) = some r ∧ c.sh.chead.index < r.1.chead.index := by
  obtain ⟨c, hexec, q, chead, new, hpc, hsize, hwin, r, hr⟩ : ∃ c, execOf twoSlots
      (fun _ _ _ _ pc' => Fitting twoSlots usizeMax pc')
      (calls 0 (.pushBatch [7, 8, 9]) 2 ++ [(0, .alloc [100])] ++ steps 0 3 ++
        [(0, .alloc [101])] ++ steps 0 11 ++ calls 1 (.popBatch 1 1) 7 ++
        calls 1 (.popBatch (usizeMax - 1) 0) 2) = some c ∧
      ∃ q chead new, c.pc 1 = .cCas q chead new ∧ q.size + twoSlots.bl = usizeMax + 1 ∧
        c.sh.chead = chead ∧ ∃ r, step twoSlots 1 .run c.sh (c.pc 1) = some r :=
    ⟨_, rfl, _, _, _, rfl, by decide +kernel, by decide +kernel, _, rfl⟩
  have hc : (fitting ℕ twoSlots usizeMax).Reachable c := execOf_reachable hexec
  have h := fitting_requests_advance hc 1
  exact ⟨c, q, chead, new, hc, hpc, hsize, h.1, r, hr, (h.2 q chead new r hpc hwin hr).1⟩

/-! ## Words

A release build computes the sums modulo the word.  As long as every request fits it
takes the same steps as the machine with exact sums. -/

/-- The sum of two words up to `m`, without overflow checks. -/
def wordAdd (m a b : ℕ) : ℕ := (a + b) % (m + 1)

/-- The MPMC queue on words up to `m`. -/
def words (T : Type*) (cfg : Config) (m : ℕ) : System Tid (Shared T) (Pc T) :=
  .ofStep Shared.new .idle (stepWith (wordAdd m) cfg)

theorem wordAdd_eq {a b : ℕ} (h : a + b ≤ m) : wordAdd m a b = a + b :=
  Nat.mod_eq_of_lt (Nat.lt_succ_of_le h)

theorem popLoopWith_wordAdd (h : ∀ x ∈ proposed cfg q chead, x ≤ m) :
    (popLoopWith (wordAdd m) cfg q chead : Pc T) = popLoop cfg q chead := by
  unfold popLoop popLoopWith
  split
  · rfl
  · rename_i hidx
    split
    · rename_i hnext
      rw [wordAdd_eq (h _ (by simp [proposed, hidx, hnext]))]
    · rfl

/-- A step whose sums stay within a word is the exact step. -/
theorem stepWith_wordAdd (h : ∀ x ∈ sums cfg s pc, x ≤ m) (act : Act T) :
    stepWith (wordAdd m) cfg t act s pc = step cfg t act s pc := by
  cases act with
  | call op => cases pc <;> cases op <;> rfl
  | alloc as => cases pc <;> rfl
  | spurious =>
    cases pc with
    | cCas q chead new => exact congrArg (fun p => some (see s t, p)) (popLoopWith_wordAdd h)
    | _ => rfl
  | run =>
    cases pc with
    | cReload q => exact congrArg (fun p => some (see s t, p)) (popLoopWith_wordAdd h)
    | cCas q chead new =>
      simp only [step, stepWith]
      split
      · rfl
      · exact congrArg (fun p => some (see s t, p)) (popLoopWith_wordAdd h)
    | cPhead q chead =>
      simp only [sums] at h
      simp only [step, stepWith]
      split
      · rename_i hsame
        rw [if_pos hsame] at h
        split
        · rfl
        · rename_i hlen
          rw [if_neg hlen] at h
          rw [wordAdd_eq (h _ (by simp))]
      · rename_i hsame
        rw [if_neg hsame] at h
        rw [wordAdd_eq (h _ (by simp))]
    | cStoreP w | cStoreN w =>
      simp only [step, stepWith]
      rw [wordAdd_eq (h _ (by simp [sums]))]
    | _ => rfl

section Runs

variable {ok : Tid → Shared T → Pc T → Shared T → Pc T → Prop}

theorem words_moves (hok : ∀ t s p s' p', ok t s p s' p' → Fitting cfg m p') {c' : Conf T}
    (hc : ((system T cfg).restrict ok).Reachable c)
    (hm : ((words T cfg m).restrict ok).Moves t c c') :
    ((system T cfg).restrict ok).Moves t c c' := by
  obtain ⟨s', p', ⟨⟨act, hs⟩, ht⟩, rfl⟩ := hm
  obtain ⟨hI, hL⟩ := run_bounded (System.restrict_mono hok hc)
  exact ⟨s', p', ⟨⟨act, stepWith_wordAdd (sums_le hI (hL t)) act ▸ hs⟩, ht⟩, rfl⟩

/-- **A run on words whose requests fit is a run with exact sums.** -/
theorem words_exact (hok : ∀ t s p s' p', ok t s p s' p' → Fitting cfg m p')
    (hc : ((words T cfg m).restrict ok).Reachable c) : ((system T cfg).restrict ok).Reachable c :=
  hc.of_moves rfl fun _ _ _ => words_moves hok

/-- Run a schedule on words, giving up at a step that `ok` forbids. -/
def wordExec (cfg : Config) (m : ℕ) (ok : Tid → Shared T → Pc T → Shared T → Pc T → Prop)
    [∀ t s p s' p', Decidable (ok t s p s' p')] (sched : List (Tid × Act T)) : Option (Conf T) :=
  System.runs (System.guarded (stepWith (wordAdd m) cfg) ok) sched
    (words T cfg m).start

theorem wordExec_reachable [∀ t s p s' p', Decidable (ok t s p s' p')]
    (h : wordExec cfg m ok sched = some c) :
    ((words T cfg m).restrict ok).Reachable c :=
  System.runs_guarded h

end Runs

end Mpmc
