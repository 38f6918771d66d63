/-
# The sizes of adaptive rounds

`adaptive_throughput` of `src/bench_harness/mod.rs` finds a round size by doubling, and
then runs warm-up, handoff and ceiling rounds.  The rounds themselves are in
`Bench.Handoff`; here a round is whatever it reports, a failure or its figures, so a run is
driven by an arbitrary list of outcomes.  Numbers are those of `u64`: a product that
overflows is a panic, and so is a checked sum.

The figures that are only passed on to the report are left out.
-/
import Mathlib.Data.Nat.Find
import Mathlib.Algebra.Order.Group.Nat

namespace Bench.Adaptive

/-! ## Arithmetic of `u64` -/

/-- `u64::MAX`. -/
def u64Max : ℕ := 2 ^ 64 - 1

/-- `a * b` with overflow checks. -/
def mul (a b : ℕ) : Except String ℕ :=
  if a * b ≤ u64Max then .ok (a * b) else .error "attempt to multiply with overflow"

/-- `u64::saturating_mul`. -/
def saturatingMul (a b : ℕ) : ℕ := min (a * b) u64Max

/-- `checked_add` with the message of its `expect`. -/
def checkedAdd (a b : ℕ) (message : String) : Except String ℕ :=
  if a + b ≤ u64Max then .ok (a + b) else .error message

/-- `u64::div_ceil`. -/
def divCeil (a b : ℕ) : ℕ := (a + b - 1) / b

/-- `total_items`, with its panic as an error. -/
def totalItems (itemsPerProducer producers : ℕ) : Except String ℕ :=
  if itemsPerProducer * producers ≤ u64Max then .ok (itemsPerProducer * producers)
  else .error "total items overflow"

/-- `batch_aligned_round_items`. -/
def batchAlignedRoundItems (items batch maxPerProducer : ℕ) : Except String (Option ℕ) := do
  let maxBatchAligned ← mul (maxPerProducer / batch) batch
  return if 0 < maxBatchAligned then
    some (min (saturatingMul (divCeil (max items 1) batch) batch) maxBatchAligned)
  else none

/-! ## The phases -/

/-- The policy with its durations in nanoseconds, the scenario and the queue. -/
structure Setup where
  maxRoundItems : ℕ
  pilotDuration : ℕ
  warmupDuration : ℕ
  phaseDuration : ℕ
  producers : ℕ
  consumers : ℕ
  batchSize : Option ℕ
  boundedCapacity : Option ℕ
  allowUnpinned : Bool
  max_pos : 1 ≤ maxRoundItems
  max_le : maxRoundItems ≤ u64Max
  producers_pos : 1 ≤ producers
  producers_le : producers ≤ u64Max
  batch_pos : ∀ size, batchSize = some size → 1 ≤ size
  capacity_le : ∀ capacity, boundedCapacity = some capacity → capacity ≤ u64Max

/-- What a round reports. -/
inductive Outcome
  | failed (reason : String)
  | done (elapsed producerElapsed items : ℕ) (affinityOk : Bool)

/-- What runs next: a handoff round of the pilot, the warm-up or the measured phase, an
enqueue or a dequeue round, or nothing. -/
inductive Phase
  | pilot (items : ℕ)
  | warmup (items : ℕ)
  | handoff (items : ℕ)
  | enqueue (items total : ℕ)
  | dequeue (items total : ℕ)
  | rejected (reason : String) (elapsed : ℕ)
  | finished

/-- The accumulators. -/
structure Totals where
  affinityOk : Bool := true
  calibrationElapsed : ℕ := 0
  warmupElapsed : ℕ := 0
  handoffElapsed : ℕ := 0
  handoffItems : ℕ := 0
  producerElapsedMax : ℕ := 0
  enqueueElapsed : ℕ := 0
  enqueueItems : ℕ := 0
  dequeueElapsed : ℕ := 0
  dequeueItems : ℕ := 0

namespace Setup

variable (s : Setup)
variable {p : ℕ}

/-- `batch_size`, one without batches. -/
def batch : ℕ := s.batchSize.getD 1

/-- The cap on the items of one producer in a round. -/
def maxPerProducer : ℕ := max (s.maxRoundItems / s.producers) 1

/-- The closure `normalize` of `adaptive_throughput`. -/
def normalize (items : ℕ) : Except String ℕ := do
  match ← batchAlignedRoundItems items s.batch s.maxPerProducer with
  | some items => .ok items
  | none => .error "batch was validated against the round cap"

/-- The items that fit beside the sentinels of the consumers. -/
def capacityLimit : ℕ :=
  (s.boundedCapacity.map fun capacity => capacity - s.consumers).getD s.maxRoundItems

/-- The size of a ceiling round, in terms of the size of a handoff round. -/
def ceilingItems (pilotItems : ℕ) : Except String ℕ :=
  let ceilingMaxPerProducer := s.capacityLimit / s.producers
  if s.batch = 1 then .ok (max (min pilotItems ceilingMaxPerProducer) 1)
  else
    let candidate := min pilotItems ceilingMaxPerProducer
    if candidate < s.batch then .ok 0 else mul (candidate / s.batch) s.batch

/-- The head of the ceiling loop, and what follows it. -/
def ceilingLoop (items total : ℕ) (r : Totals) : Phase :=
  if r.enqueueElapsed < s.phaseDuration ∨ r.dequeueElapsed < s.phaseDuration then
    .enqueue items total
  else if !r.affinityOk && !s.allowUnpinned then
    .rejected "one or more benchmark workers could not be pinned to the requested CPU"
      r.handoffElapsed
  else .finished

/-- The sizing of the ceiling rounds. -/
def ceiling (pilotItems : ℕ) (r : Totals) : Except String Phase := do
  let items ← s.ceilingItems pilotItems
  let total ← totalItems items s.producers
  if items = 0 ∨ s.capacityLimit < total then
    return .rejected
      (s!"bounded capacity {s.boundedCapacity.getD 0} cannot hold one ceiling round plus " ++
        s!"{s.consumers} consumer sentinels") 0
  else return s.ceilingLoop items total r

/-- The head of the handoff loop. -/
def handoffLoop (items : ℕ) (r : Totals) : Except String Phase :=
  if r.handoffElapsed < s.phaseDuration then .ok (.handoff items) else s.ceiling items r

/-- The head of the warm-up loop. -/
def warmupLoop (items : ℕ) (r : Totals) : Except String Phase :=
  if r.warmupElapsed < s.warmupDuration then .ok (.warmup items) else s.handoffLoop items r

/-- What is decided before the first round. -/
def start : Except String Phase := do
  match ← batchAlignedRoundItems 1 s.batch s.maxPerProducer with
  | none =>
    return .rejected
      s!"batch size {s.batch} exceeds the per-producer round cap {s.maxPerProducer}" 0
  | some _ =>
    let items ← s.normalize 4096
    return .pilot items

/-- A round and what is done with its outcome. -/
def step (phase : Phase) (r : Totals) (o : Outcome) : Except String (Phase × Totals) :=
  match phase with
  | .pilot items => do
    let _ ← totalItems items s.producers
    match o with
    | .failed reason => return (.rejected reason r.calibrationElapsed, r)
    | .done elapsed _ _ affinityOk =>
      let r := { r with calibrationElapsed := r.calibrationElapsed + elapsed
                        affinityOk := r.affinityOk && affinityOk }
      let next ← s.normalize (saturatingMul items 2)
      if s.pilotDuration ≤ elapsed ∨ next = items then return (← s.warmupLoop items r, r)
      else return (.pilot next, r)
  | .warmup items => do
    let _ ← totalItems items s.producers
    match o with
    | .failed reason => return (.rejected reason r.warmupElapsed, r)
    | .done elapsed _ _ affinityOk =>
      let r := { r with warmupElapsed := r.warmupElapsed + max elapsed 1
                        affinityOk := r.affinityOk && affinityOk }
      return (← s.warmupLoop items r, r)
  | .handoff items => do
    let _ ← totalItems items s.producers
    match o with
    | .failed reason => return (.rejected reason r.handoffElapsed, r)
    | .done elapsed producerElapsed moved affinityOk =>
      let handoffItems ← checkedAdd r.handoffItems moved "handoff item count overflow"
      let r := { r with handoffElapsed := r.handoffElapsed + max elapsed 1
                        producerElapsedMax := max r.producerElapsedMax producerElapsed
                        handoffItems := handoffItems
                        affinityOk := r.affinityOk && affinityOk }
      return (← s.handoffLoop items r, r)
  | .enqueue items total =>
    match o with
    | .failed reason => return (.rejected reason r.enqueueElapsed, r)
    | .done elapsed _ _ affinityOk => do
      -- an enqueue round reports the total that was asked for
      let moved ← totalItems items s.producers
      let enqueueItems ← checkedAdd r.enqueueItems moved "enqueue item count overflow"
      return (.dequeue items total,
        { r with enqueueElapsed := r.enqueueElapsed + max elapsed 1
                 enqueueItems := enqueueItems
                 affinityOk := r.affinityOk && affinityOk })
  | .dequeue items total =>
    match o with
    | .failed reason => return (.rejected reason r.dequeueElapsed, r)
    | .done elapsed _ moved affinityOk => do
      let dequeueItems ← checkedAdd r.dequeueItems moved "dequeue item count overflow"
      let r := { r with dequeueElapsed := r.dequeueElapsed + max elapsed 1
                        dequeueItems := dequeueItems
                        affinityOk := r.affinityOk && affinityOk }
      return (s.ceilingLoop items total r, r)
  | .rejected _ _ | .finished => return (phase, r)

/-- A run, driven by the outcomes of its rounds. -/
def run (outcomes : List Outcome) : Except String (Phase × Totals) := do
  let phase ← s.start
  outcomes.foldlM (fun st o => s.step st.1 st.2 o) (phase, {})

/-! ## What the sizes are -/

/-- A size of handoff rounds. -/
def Fits (items : ℕ) : Prop :=
  0 < items ∧ s.batch ∣ items ∧ items ≤ max 1 (s.maxRoundItems / s.producers)

/-- A phase that runs a round runs one of a proper size, and a pilot round of a size with
`pilot`. -/
def Sized (pilot : ℕ → Prop) : Phase → Prop
  | .pilot items => pilot items
  | .warmup items | .handoff items => s.Fits items
  | .enqueue items total | .dequeue items total =>
    0 < items ∧ s.batch ∣ items ∧ total = items * s.producers ∧ total ≤ s.capacityLimit
  | .rejected _ _ | .finished => True

/-- The panics that remain: only the counts of moved items are not bounded by the setup. -/
def CountOverflow (message : String) : Prop :=
  message ∈
    ["handoff item count overflow", "enqueue item count overflow", "dequeue item count overflow"]

/-- The largest size of handoff rounds. -/
def aligned : ℕ := s.maxPerProducer / s.batch * s.batch

theorem batch_pos' : 0 < s.batch := by
  unfold batch
  cases hb : s.batchSize with
  | none => exact Nat.one_pos
  | some size => exact s.batch_pos size hb

theorem maxPerProducer_le : s.maxPerProducer ≤ u64Max := by
  have hdiv := Nat.div_le_self s.maxRoundItems s.producers
  have hmax := s.max_le
  have hone : 1 ≤ u64Max := by decide
  exact Nat.max_le.mpr ⟨by omega, hone⟩

theorem aligned_le : s.aligned ≤ s.maxPerProducer := Nat.div_mul_le_self _ _

theorem batchAligned_eq (items : ℕ) :
    batchAlignedRoundItems items s.batch s.maxPerProducer = .ok (if 0 < s.aligned then
      some (min (saturatingMul (divCeil (max items 1) s.batch) s.batch) s.aligned) else none) := by
  have hle : s.maxPerProducer / s.batch * s.batch ≤ u64Max :=
    (Nat.div_mul_le_self _ _).trans s.maxPerProducer_le
  unfold batchAlignedRoundItems mul
  rw [if_pos hle]
  rfl

theorem normalize_eq (h : 0 < s.aligned) (items : ℕ) :
    s.normalize items =
      .ok (min (saturatingMul (divCeil (max items 1) s.batch) s.batch) s.aligned) := by
  unfold normalize
  rw [batchAligned_eq, if_pos h]
  rfl

theorem le_divCeil_mul {a b : ℕ} (hb : 0 < b) : a ≤ divCeil a b * b := by
  have hdiv := Nat.div_add_mod (a + b - 1) b
  have hmod := Nat.mod_lt (a + b - 1) hb
  unfold divCeil
  rw [Nat.mul_comm]
  omega

/-- A saturated product exceeds the cap, so what `normalize` returns is a multiple. -/
theorem normalize_fits (h : 0 < s.aligned) (items : ℕ) :
    ∃ n, s.normalize items = .ok n ∧ s.Fits n ∧ n ≤ s.aligned ∧
      (s.aligned ≤ items → n = s.aligned) := by
  have hcap : s.aligned ≤ u64Max := s.aligned_le.trans s.maxPerProducer_le
  have hle := le_divCeil_mul (a := max items 1) s.batch_pos'
  have hitems : items ≤ max items 1 := Nat.le_max_left _ _
  have hone : 1 ≤ max items 1 := Nat.le_max_right _ _
  refine ⟨_, s.normalize_eq h items, ⟨?_, ?_, ?_⟩, Nat.min_le_right _ _, fun hge => ?_⟩
  · unfold saturatingMul
    omega
  · unfold saturatingMul
    rcases Nat.le_total (divCeil (max items 1) s.batch * s.batch) s.aligned with hc | hc
    · rw [Nat.min_eq_left (hc.trans hcap), Nat.min_eq_left hc]
      exact Nat.dvd_mul_left _ _
    · rw [Nat.min_eq_right (Nat.le_min.mpr ⟨hc, hcap⟩)]
      exact Nat.dvd_mul_left _ _
  · have hmax := s.aligned_le
    unfold maxPerProducer at hmax
    omega
  · unfold saturatingMul
    omega

/-- Doubling a size gives twice the size, up to the cap. -/
theorem normalize_double (h : 0 < s.aligned) (hp : s.Fits p) :
    s.normalize (saturatingMul p 2) = .ok (min (2 * p) s.aligned) := by
  have hcap : s.aligned ≤ u64Max := s.aligned_le.trans s.maxPerProducer_le
  obtain ⟨n, hn, -, hna, hsat⟩ := s.normalize_fits h (saturatingMul p 2)
  rcases Nat.le_total s.aligned (2 * p) with hc | hc
  · rw [hn, hsat, Nat.min_eq_right hc]
    unfold saturatingMul
    omega
  · obtain ⟨k, hk⟩ := hp.2.1
    have hpos := hp.1
    have hexact : divCeil (max (saturatingMul p 2) 1) s.batch * s.batch = 2 * p := by
      have hmax : max (saturatingMul p 2) 1 = s.batch * (2 * k) := by
        have hmul : s.batch * (2 * k) = 2 * p := by rw [hk, Nat.mul_left_comm]
        rw [hmul]
        unfold saturatingMul
        omega
      have hceil : divCeil (s.batch * (2 * k)) s.batch = 2 * k := by
        unfold divCeil
        have hb := s.batch_pos'
        rw [Nat.add_sub_assoc hb, Nat.mul_add_div hb, Nat.div_eq_of_lt (by omega), Nat.add_zero]
      rw [hmax, hceil, hk, Nat.mul_assoc, Nat.mul_comm k]
    rw [s.normalize_eq h, saturatingMul, hexact, Nat.min_eq_left (hc.trans hcap)]

theorem Fits.le_aligned (hp : s.Fits p) : p ≤ s.aligned := by
  obtain ⟨_, ⟨k, rfl⟩, hle⟩ := hp
  have hk : k ≤ s.maxPerProducer / s.batch := by
    rw [Nat.le_div_iff_mul_le s.batch_pos', Nat.mul_comm]
    unfold maxPerProducer
    omega
  rw [Nat.mul_comm]
  exact Nat.mul_le_mul_right _ hk

/-- A size within `n` for each producer comes to at most `n`, or to one item each. -/
theorem totalItems_ok {p n : ℕ} (hp : p ≤ max 1 (n / s.producers)) (hn : n ≤ u64Max) :
    totalItems p s.producers = .ok (p * s.producers) := by
  unfold totalItems
  rw [if_pos]
  have hdiv := Nat.div_mul_le_self n s.producers
  have hmul := Nat.mul_le_mul_right s.producers hp
  have hle := s.producers_le
  rcases Nat.le_total 1 (n / s.producers) with hc | hc
  · rw [Nat.max_eq_right hc] at hmul
    omega
  · rw [Nat.max_eq_left hc, Nat.one_mul] at hmul
    omega

theorem capacityLimit_le : s.capacityLimit ≤ u64Max := by
  unfold capacityLimit
  cases hc : s.boundedCapacity with
  | none => exact s.max_le
  | some capacity => exact (Nat.sub_le _ _).trans (s.capacity_le capacity hc)

theorem ceilingItems_ok (hp : s.Fits p) :
    ∃ n, s.ceilingItems p = .ok n ∧ s.batch ∣ n ∧ n ≤ max 1 (s.capacityLimit / s.producers) := by
  unfold ceilingItems
  dsimp only
  split
  · rename_i hone
    refine ⟨_, rfl, ?_, by omega⟩
    rw [hone]
    exact Nat.one_dvd _
  split
  · exact ⟨0, rfl, Nat.dvd_zero _, Nat.zero_le _⟩
  · have hle := Nat.div_mul_le_self (min p (s.capacityLimit / s.producers)) s.batch
    have hcap := s.aligned_le.trans s.maxPerProducer_le
    have hpa := hp.le_aligned
    refine ⟨_, if_pos (by omega), Nat.dvd_mul_left _ _, by omega⟩

section Phases

variable {pilot : ℕ → Prop}

theorem ceilingLoop_sized {items total : ℕ} (h : s.Sized pilot (.enqueue items total))
    (r : Totals) :
    s.Sized pilot (s.ceilingLoop items total r) := by
  unfold ceilingLoop
  split
  · exact h
  split
  · trivial
  · trivial

/-- The ceiling is rejected, or its rounds fit the capacity. -/
theorem ceiling_ok (hp : s.Fits p) (r : Totals) :
    ∃ phase, s.ceiling p r = .ok phase ∧ s.Sized pilot phase := by
  obtain ⟨n, hn, hdvd, hle⟩ := s.ceilingItems_ok hp
  unfold ceiling
  rw [hn]
  simp only [bind, Except.bind, s.totalItems_ok hle s.capacityLimit_le]
  split
  · exact ⟨_, rfl, trivial⟩
  · exact ⟨_, rfl, s.ceilingLoop_sized ⟨by omega, hdvd, rfl, by omega⟩ r⟩

theorem handoffLoop_ok (hp : s.Fits p) (r : Totals) :
    ∃ phase, s.handoffLoop p r = .ok phase ∧ s.Sized pilot phase := by
  unfold handoffLoop
  split
  · exact ⟨_, rfl, hp⟩
  · exact s.ceiling_ok hp r

theorem warmupLoop_ok (hp : s.Fits p) (r : Totals) :
    ∃ phase, s.warmupLoop p r = .ok phase ∧ s.Sized pilot phase := by
  unfold warmupLoop
  split
  · exact ⟨_, rfl, hp⟩
  · exact s.handoffLoop_ok hp r

end Phases

/-! ## Steps and runs -/

/-- The sizes of the pilot rounds: doubled up to the cap. -/
def pilotItems (first : ℕ) : ℕ → ℕ
  | 0 => first
  | k + 1 => min (2 * pilotItems first k) s.aligned

/-- The outcome of a step or a run: proper sizes, or a count that overflows. -/
def Good (pilot : ℕ → Prop) (e : Except String (Phase × Totals)) : Prop :=
  match e with
  | .ok st => s.Sized pilot st.1
  | .error message => CountOverflow message

variable {s} {pilot : ℕ → Prop}

theorem good_of_loop {e : Except String Phase} (h : ∃ phase, e = .ok phase ∧ s.Sized pilot phase)
    (r : Totals) : s.Good pilot (e >>= fun phase => .ok (phase, r)) := by
  obtain ⟨phase, rfl, hsized⟩ := h
  exact hsized

theorem good_of_add {a b : ℕ} {message : String} (hm : CountOverflow message)
    {k : ℕ → Except String (Phase × Totals)} (h : ∀ n, s.Good pilot (k n)) :
    s.Good pilot (checkedAdd a b message >>= k) := by
  unfold checkedAdd
  split
  · exact h _
  · exact hm

/-- **One round** leads to a round of a proper size; the next pilot round has twice the
size, up to the cap. -/
theorem step_good {q : ℕ} (hq : s.Fits q) {phase : Phase} (h : s.Sized (· = q) phase) (r : Totals)
    (o : Outcome) : s.Good (· = min (2 * q) s.aligned) (s.step phase r o) := by
  have htotal {p : ℕ} (hp : s.Fits p) : totalItems p s.producers = .ok (p * s.producers) :=
    s.totalItems_ok hp.2.2 s.max_le
  cases phase with
  | pilot items =>
    obtain rfl : items = q := h
    cases o with
    | failed reason =>
      rw [step, htotal hq]
      trivial
    | done elapsed producerElapsed moved affinityOk =>
      rw [step, htotal hq]
      rw [s.normalize_double (hq.1.trans_le hq.le_aligned) hq]
      show s.Good _ (if _ then _ else _)
      split
      · exact good_of_loop (s.warmupLoop_ok hq _) _
      · exact rfl
  | warmup items =>
    cases o with
    | failed reason =>
      rw [step, htotal h]
      trivial
    | done elapsed producerElapsed moved affinityOk =>
      rw [step, htotal h]
      exact good_of_loop (s.warmupLoop_ok h _) _
  | handoff items =>
    cases o with
    | failed reason =>
      rw [step, htotal h]
      trivial
    | done elapsed producerElapsed moved affinityOk =>
      rw [step, htotal h]
      exact good_of_add (by simp [CountOverflow]) fun _ => good_of_loop (s.handoffLoop_ok h _) _
  | enqueue items total =>
    cases o with
    | failed reason => trivial
    | done elapsed producerElapsed moved affinityOk =>
      rw [step, totalItems, if_pos (h.2.2.1 ▸ h.2.2.2.trans s.capacityLimit_le)]
      exact good_of_add (by simp [CountOverflow]) fun _ => h
  | dequeue items total =>
    cases o with
    | failed reason => trivial
    | done elapsed producerElapsed moved affinityOk =>
      exact good_of_add (by simp [CountOverflow]) fun _ => s.ceilingLoop_sized h _
  | rejected reason elapsed => trivial
  | finished => trivial

theorem pilotItems_fits {first : ℕ} (hfirst : s.Fits first) (k : ℕ) :
    s.Fits (s.pilotItems first k) := by
  induction k with
  | zero => exact hfirst
  | succ k ih =>
    have hpos := ih.1.trans_le ih.le_aligned
    obtain ⟨n, hn, hfits, -, -⟩ := s.normalize_fits hpos (saturatingMul (s.pilotItems first k) 2)
    rw [s.normalize_double hpos ih] at hn
    rwa [pilotItems, Except.ok.inj hn]

/-- A whole run: after `k` more rounds the pilot has been doubled `k` times. -/
theorem run_good {first k : ℕ} (hfirst : s.Fits first) {phase : Phase}
    (h : s.Sized (· = s.pilotItems first k) phase) (r : Totals) (outcomes : List Outcome) :
    s.Good (· = s.pilotItems first (k + outcomes.length))
      (outcomes.foldlM (fun st o => s.step st.1 st.2 o) (phase, r)) := by
  induction outcomes generalizing k phase r with
  | nil => exact h
  | cons o outcomes ih =>
    have hstep := step_good (pilotItems_fits hfirst k) h r o
    rw [List.foldlM_cons, List.length_cons, Nat.add_comm outcomes.length, ← Nat.add_assoc]
    cases he : s.step phase r o with
    | error message =>
      rwa [he] at hstep
    | ok st =>
      rw [he] at hstep
      exact ih (k := k + 1) hstep st.2

/-- The doubling grows until it reaches the cap, and stays there. -/
theorem pilotItems_stabilise {first : ℕ} (hfirst : s.Fits first) :
    ∃ n, (∀ k < n, s.pilotItems first k < s.pilotItems first (k + 1)) ∧
      ∀ k ≥ n, s.pilotItems first k = s.pilotItems first n := by
  have hgrow : ∀ k, s.pilotItems first k ≠ s.aligned →
      s.pilotItems first k < s.pilotItems first (k + 1) := by
    intro k hk
    have hpos := (pilotItems_fits hfirst k).1
    have hle := (pilotItems_fits hfirst k).le_aligned
    rw [pilotItems]
    omega
  have hex : ∃ n, s.pilotItems first n = s.aligned := by
    by_contra hno
    rw [not_exists] at hno
    have hlong : ∀ k, k < s.pilotItems first k := by
      intro k
      induction k with
      | zero => exact hfirst.1
      | succ k ih => exact Nat.lt_of_le_of_lt ih (hgrow k (hno k))
    exact absurd (hlong s.aligned) (Nat.not_lt.mpr (pilotItems_fits hfirst _).le_aligned)
  refine ⟨Nat.find hex, fun k hk => hgrow k (Nat.find_min hex hk), fun k hk => ?_⟩
  rw [Nat.find_spec hex]
  induction k, hk using Nat.le_induction with
  | base => exact Nat.find_spec hex
  | succ k _ ih =>
    rw [pilotItems, ih]
    omega

end Setup

end Bench.Adaptive
