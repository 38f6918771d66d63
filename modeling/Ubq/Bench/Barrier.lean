/-
# The round barrier

`RoundBarrier` of `src/bench_harness/hardware.rs`: arrivals are counted in shards,
the last arrival of a shard resets its counter and counts the shard in the root,
the last shard resets the root and publishes a new generation, and everybody else
spins on the generation it has read.  Each atomic access is one step.

`usize` counters are `ℕ`; the generation wraps at `word`, as `fetch_add` does.
`entered` and `returned` are history: how often a participant has called `wait`,
and how often it has come back.

The ghost value of the proof outline names the round, who has arrived in it, and
for every shard and for the root the thread that closes it.  What makes the reset
of a counter safe is that nobody can arrive twice in one round: a participant that
has arrived waits for a generation that only the closer of the root publishes.
-/
import Ubq.Interleave
import Ubq.Tally
import Mathlib.Data.Nat.Count
import Mathlib.Data.Int.CardIntervalMod

namespace Bench.Barrier

open Function Interleave

/-- The number of participants, and the number of values of a `usize`. -/
structure Config where
  participants : ℕ
  word : ℕ

/-- `BARRIER_SHARDS`. -/
def barrierShards : ℕ := 8

/-- The number of shards that `RoundBarrier::new` makes. -/
def Config.shards (cfg : Config) : ℕ := min barrierShards (max cfg.participants 1)

/-- `(first..last).step_by(step)`. -/
def stepBy (first last step : ℕ) : List ℕ :=
  List.range' first ((last - first + step - 1) / step) step

/-- `shard_quota`. -/
def Config.quota (cfg : Config) (shard : ℕ) : ℕ :=
  (stepBy shard cfg.participants cfg.shards).length

/-! ## The machine -/

/-- The words of the barrier, and the calls begun and ended by each participant. -/
structure Shared where
  shards : ℕ → ℕ
  root : ℕ
  generation : ℕ
  /-- Calls of `wait`, and returns from it. -/
  entered : ℕ → ℕ
  returned : ℕ → ℕ

/-- The next access of a participant. -/
inductive Pc
  | out
  | load
  | arrive (generation : ℕ)
  | resetShard (generation : ℕ)
  | arriveRoot (generation : ℕ)
  | resetRoot
  | publish
  | spin (generation : ℕ)

/-- The counter of a shard is stored. -/
def Shared.setShard (s : Shared) (shard n : ℕ) : Shared :=
  { s with shards := update s.shards shard n }

/-- The root counter is stored. -/
def Shared.setRoot (s : Shared) (n : ℕ) : Shared := { s with root := n }

/-- A generation is published. -/
def Shared.setGeneration (s : Shared) (n : ℕ) : Shared := { s with generation := n }

/-- `wait` is called. -/
def Shared.enter (s : Shared) (t : ℕ) : Shared :=
  { s with entered := update s.entered t (s.entered t + 1) }

/-- `wait` returns. -/
def Shared.leave (s : Shared) (t : ℕ) : Shared :=
  { s with returned := update s.returned t (s.returned t + 1) }

/-- One atomic step of `wait(t)`; the first is the call. -/
def step (cfg : Config) (t : ℕ) (_ : Unit) (s : Shared) (pc : Pc) : Option (Shared × Pc) :=
  let shard := t % cfg.shards
  if t < cfg.participants then
    match pc with
    | .out =>
      if cfg.participants ≤ 1 then some ((s.enter t).leave t, .out) else some (s.enter t, .load)
    | .load => some (s, .arrive s.generation)
    | .arrive generation =>
      some (s.setShard shard (s.shards shard + 1),
        if s.shards shard + 1 = cfg.quota shard then .resetShard generation else .spin generation)
    | .resetShard generation => some (s.setShard shard 0, .arriveRoot generation)
    | .arriveRoot generation =>
      some (s.setRoot (s.root + 1),
        if s.root + 1 = cfg.shards then .resetRoot else .spin generation)
    | .resetRoot => some (s.setRoot 0, .publish)
    | .publish => some ((s.setGeneration ((s.generation + 1) % cfg.word)).leave t, .out)
    | .spin generation =>
      if s.generation = generation then some (s, .spin generation) else some (s.leave t, .out)
  else none

/-- A new barrier. -/
def Shared.new : Shared := ⟨fun _ => 0, 0, 0, fun _ => 0, fun _ => 0⟩

/-- The participants of the barrier. -/
def system (cfg : Config) : System ℕ Shared Pc := .ofStep Shared.new .out (step cfg)

/-! ## The proof outline -/

/-- A shard of the current round: still open, full, reset by the thread that closes
it, or counted in the root. -/
inductive Lane
  | opened
  | full (t : ℕ)
  | reset (t : ℕ)
  | counted
  deriving DecidableEq

/-- The root of the current round. -/
inductive Apex
  | opened
  | full (t : ℕ)
  | reset (t : ℕ)
  deriving DecidableEq

/-- Rounds completed, arrivals of the current one, and who closes what. -/
structure Ghost where
  round : ℕ
  came : ℕ → Bool
  lane : ℕ → Lane
  apex : Apex

variable {cfg : Config} {t u : ℕ} {s s' : Shared} {g g' : Ghost}
variable {shard generation : ℕ} {pc : Pc} {lane : Lane}
variable (cfg s g)

/-- The members of a shard. -/
def members (shard : ℕ) : ℕ :=
  tally (fun i => decide (i % cfg.shards = shard)) 0 cfg.participants

/-- The members of a shard that have arrived. -/
def arrivals (shard : ℕ) : ℕ :=
  tally (fun i => decide (i % cfg.shards = shard) && g.came i) 0 cfg.participants

/-- The shards that are counted in the root. -/
def countedLanes : ℕ :=
  tally (fun shard => decide (g.lane shard = .counted)) 0 cfg.shards

/-- The counter of a shard and its state. -/
def LaneOk (shard : ℕ) : Prop :=
  match g.lane shard with
  | .opened => s.shards shard = arrivals cfg g shard ∧ arrivals cfg g shard < members cfg shard
  | .full _ => s.shards shard = members cfg shard ∧ arrivals cfg g shard = members cfg shard
  | .reset _ | .counted => s.shards shard = 0 ∧ arrivals cfg g shard = members cfg shard

/-- The root counter and the state of the root. -/
def ApexOk : Prop :=
  match g.apex with
  | .opened => s.root = countedLanes cfg g ∧ countedLanes cfg g < cfg.shards
  | .full _ => s.root = cfg.shards ∧ countedLanes cfg g = cfg.shards
  | .reset _ => s.root = 0 ∧ countedLanes cfg g = cfg.shards

/-- The invariant. -/
structure Inv : Prop where
  generation : s.generation = g.round % cfg.word
  lane : ∀ shard, shard < cfg.shards → LaneOk cfg s g shard
  beyond : ∀ shard, cfg.shards ≤ shard → g.lane shard = .opened
  apex : ApexOk cfg s g

/-- Inside a call of the current round, arrived (`b`) or not. -/
def Calling (t : ℕ) (b : Bool) : Prop :=
  g.came t = b ∧ s.entered t = g.round + 1 ∧ s.returned t = g.round

/-- Still inside the call of the last round. -/
def Leaving (t : ℕ) : Prop :=
  g.came t = false ∧ s.entered t = g.round ∧ s.returned t + 1 = g.round

/-- The assertion at each program counter. -/
def At (t : ℕ) : Pc → Prop
  | .out => g.came t = false ∧ s.entered t = g.round ∧ s.returned t = g.round
  | .load => Calling s g t false
  | .arrive generation => Calling s g t false ∧ generation = g.round % cfg.word
  | .resetShard generation | .arriveRoot generation =>
    Calling s g t true ∧ generation = g.round % cfg.word
  | .resetRoot | .publish => Calling s g t true
  | .spin generation => (Calling s g t true ∧ generation = g.round % cfg.word) ∨ Leaving s g t

/-- It has made its shard full. -/
def Pc.fills : Pc → Bool
  | .resetShard _ => true
  | _ => false

/-- It has reset its shard. -/
def Pc.roots : Pc → Bool
  | .arriveRoot _ => true
  | _ => false

/-- It has made the root full. -/
def Pc.tops : Pc → Bool
  | .resetRoot => true
  | _ => false

/-- It has reset the root. -/
def Pc.publishes : Pc → Bool
  | .publish => true
  | _ => false

/-- The assertion of a participant, with what it closes. -/
structure Local (t : ℕ) (s : Shared) (g : Ghost) (pc : Pc) : Prop where
  full : ∀ shard, g.lane shard = .full t ↔ pc.fills = true ∧ shard = t % cfg.shards
  reset : ∀ shard, g.lane shard = .reset t ↔ pc.roots = true ∧ shard = t % cfg.shards
  apex_full : g.apex = .full t ↔ pc.tops = true
  apex_reset : g.apex = .reset t ↔ pc.publishes = true
  here : At cfg s g t pc

/-- What participant `u` closes. -/
structure Closes (u : ℕ) (g g' : Ghost) : Prop where
  full : ∀ shard, g'.lane shard = .full u ↔ g.lane shard = .full u
  reset : ∀ shard, g'.lane shard = .reset u ↔ g.lane shard = .reset u
  apex_full : g'.apex = .full u ↔ g.apex = .full u
  apex_reset : g'.apex = .reset u ↔ g.apex = .reset u

/-- The round goes on, or the next one begins: then `u` has arrived and closes nothing. -/
structure Rely (u : ℕ) (s : Shared) (g : Ghost) (s' : Shared) (g' : Ghost) : Prop where
  entered : s'.entered u = s.entered u
  returned : s'.returned u = s.returned u
  closes : Closes u g g'
  round : (g'.round = g.round ∧ g'.came u = g.came u) ∨
    (g'.round = g.round + 1 ∧ g.came u = true ∧ g'.came u = false ∧
      (∀ shard, g.lane shard ≠ .full u ∧ g.lane shard ≠ .reset u) ∧
      g.apex ≠ .full u ∧ g.apex ≠ .reset u)

variable {cfg s g}

/-- The assertion of `u` survives the steps of the others. -/
theorem local_stable (hl : Local cfg u s g pc) (hR : Rely u s g s' g') :
    Local cfg u s' g' pc := by
  refine ⟨fun shard => (hR.closes.full shard).trans (hl.full shard),
    fun shard => (hR.closes.reset shard).trans (hl.reset shard),
    hR.closes.apex_full.trans hl.apex_full, hR.closes.apex_reset.trans hl.apex_reset, ?_⟩
  have hh := hl.here
  have hent := hR.entered
  have hret := hR.returned
  rcases hR.round with ⟨hround, hcame⟩ | ⟨hround, hcame, hcame', hlane, hfull, hreset⟩
  · cases pc <;> simp only [At, Calling, Leaving, hround, hcame, hent, hret] at hh ⊢ <;> exact hh
  · -- only a thread that spins has arrived and closes nothing
    cases pc with
    | out => simp [At, hcame] at hh
    | load => simp [At, Calling, hcame] at hh
    | arrive => simp [At, Calling, hcame] at hh
    | resetShard => exact absurd ((hl.full _).mpr ⟨rfl, rfl⟩) (hlane _).1
    | arriveRoot => exact absurd ((hl.reset _).mpr ⟨rfl, rfl⟩) (hlane _).2
    | resetRoot => exact absurd (hl.apex_full.mpr rfl) hfull
    | publish => exact absurd (hl.apex_reset.mpr rfl) hreset
    | spin generation =>
      rcases hh with ⟨⟨_, hentered, hreturned⟩, _⟩ | ⟨hno, _⟩
      · exact .inr ⟨hcame', by omega, by omega⟩
      · simp [hcame] at hno

/-! ## Shards and their members -/

theorem shards_pos (cfg : Config) : 0 < cfg.shards := by
  unfold Config.shards barrierShards
  omega

/-- `shard_quota` counts the participants that arrive in the shard. -/
theorem quota_eq (hshard : shard < cfg.shards) : cfg.quota shard = members cfg shard := by
  have hmembers : members cfg shard
      = cfg.participants / cfg.shards
        + if shard < cfg.participants % cfg.shards then 1 else 0 := by
    have hcount := Nat.count_modEq_card cfg.participants (shards_pos cfg) shard
    rw [Nat.mod_eq_of_lt hshard, Nat.count_eq_card_filter_range] at hcount
    rw [← hcount]
    unfold members tally
    congr 1
    ext i
    simp [Nat.ModEq, Nat.mod_eq_of_lt hshard, Finset.mem_filter]
  rw [hmembers]
  simp only [Config.quota, stepBy, List.length_range']
  have hdiv := Nat.div_add_mod cfg.participants cfg.shards
  have hlt := Nat.mod_lt cfg.participants (shards_pos cfg)
  generalize cfg.participants / cfg.shards = q at hdiv ⊢
  generalize cfg.participants % cfg.shards = m at hdiv hlt ⊢
  split
  · rw [← hdiv, show cfg.shards * q + m - shard + cfg.shards - 1
      = m - shard - 1 + cfg.shards * (q + 1) by rw [Nat.mul_succ]; omega,
      Nat.add_mul_div_left _ _ (shards_pos cfg), Nat.div_eq_of_lt (by omega), Nat.zero_add]
  · rcases Nat.eq_zero_or_pos q with rfl | hq
    · rw [Nat.div_eq_of_lt (by omega)]
    · have hle : cfg.shards ≤ cfg.shards * q := Nat.le_mul_of_pos_right _ hq
      rw [← hdiv, show cfg.shards * q + m - shard + cfg.shards - 1
        = m + cfg.shards - 1 - shard + cfg.shards * q by omega,
        Nat.add_mul_div_left _ _ (shards_pos cfg), Nat.div_eq_of_lt (by omega), Nat.zero_add,
        Nat.add_zero]

/-- No shard is without a member. -/
theorem members_pos (hn : 2 ≤ cfg.participants) (hshard : shard < cfg.shards) :
    0 < members cfg shard := by
  have hle : cfg.shards ≤ cfg.participants := by
    unfold Config.shards barrierShards
    omega
  have hlt : tally (fun _ => false) 0 cfg.participants < members cfg shard := by
    apply tally_lt (Nat.zero_le shard) (by omega)
    · intro q _ _ hq
      cases hq
    · rfl
    · simp [Nat.mod_eq_of_lt hshard]
  omega

theorem shard_lt (cfg : Config) (t : ℕ) : t % cfg.shards < cfg.shards :=
  Nat.mod_lt _ (shards_pos cfg)

/-- A shard that misses a member is open. -/
theorem arrivals_lt (ht : t < cfg.participants) (hcame : g.came t = false) :
    arrivals cfg g (t % cfg.shards) < members cfg (t % cfg.shards) := by
  apply tally_lt (Nat.zero_le t) (show t < 0 + cfg.participants by omega)
  · intro q _ _ hq
    simp only [Bool.and_eq_true] at hq
    exact hq.1
  · simp [hcame]
  · simp

theorem lane_opened (hG : Inv cfg s g) (ht : t < cfg.participants) (hcame : g.came t = false) :
    g.lane (t % cfg.shards) = .opened := by
  have hlane := hG.lane _ (shard_lt cfg t)
  have hlt := arrivals_lt ht hcame
  unfold LaneOk at hlane
  cases hl : g.lane (t % cfg.shards) with
  | opened => rfl
  | full => simp only [hl] at hlane; omega
  | reset => simp only [hl] at hlane; omega
  | counted => simp only [hl] at hlane; omega

/-- The root is open until every shard is counted. -/
theorem apex_opened (hG : Inv cfg s g) (hshard : shard < cfg.shards)
    (hlane : g.lane shard ≠ .counted) : g.apex = .opened := by
  have hapex := hG.apex
  have hlt : countedLanes cfg g < cfg.shards := by
    apply lt_of_le_of_ne (tally_le _ _ _)
    intro heq
    have hall := tally_eq_iff.mp heq shard (Nat.zero_le _) (by omega)
    exact hlane (by simpa using hall)
  unfold ApexOk at hapex
  cases ha : g.apex with
  | opened => rfl
  | full => simp only [ha] at hapex; omega
  | reset => simp only [ha] at hapex; omega

/-- When every shard is counted, everybody has arrived. -/
theorem all_came (hG : Inv cfg s g) (hcount : countedLanes cfg g = cfg.shards)
    (ht : t < cfg.participants) : g.came t = true := by
  have hlane : g.lane (t % cfg.shards) = .counted := by
    have hlt := shard_lt cfg t
    have hall := tally_eq_iff.mp hcount (t % cfg.shards) (Nat.zero_le _) (by omega)
    simpa using hall
  by_contra hno
  simp [lane_opened hG ht (by simpa using hno)] at hlane

/-! ## Ghost updates -/

/-- A participant has arrived. -/
def Ghost.setCame (g : Ghost) (t : ℕ) : Ghost := { g with came := update g.came t true }

/-- A shard changes its state. -/
def Ghost.setLane (g : Ghost) (shard : ℕ) (lane : Lane) : Ghost :=
  { g with lane := update g.lane shard lane }

/-- The root changes its state. -/
def Ghost.setApex (g : Ghost) (apex : Apex) : Ghost := { g with apex := apex }

/-- The next round. -/
def Ghost.next (g : Ghost) : Ghost :=
  ⟨g.round + 1, fun _ => false, fun _ => .opened, .opened⟩

/-- A lane that `t` closes before and after, or nobody. -/
def Lane.within (t : ℕ) : Lane → Prop
  | .full u | .reset u => u = t
  | _ => True

/-- `t` may have brought the root to this state. -/
def Apex.within (t : ℕ) : Apex → Prop
  | .full u | .reset u => u = t
  | _ => True

theorem Closes.refl (u : ℕ) (g : Ghost) : Closes u g g :=
  ⟨fun _ => .rfl, fun _ => .rfl, .rfl, .rfl⟩

theorem Closes.trans {g'' : Ghost} (h : Closes u g g') (h' : Closes u g' g'') : Closes u g g'' :=
  ⟨fun shard => (h'.full shard).trans (h.full shard),
    fun shard => (h'.reset shard).trans (h.reset shard),
    h'.apex_full.trans h.apex_full, h'.apex_reset.trans h.apex_reset⟩

theorem Lane.within_ne (h : lane.within t) (hu : u ≠ t) : lane ≠ .full u ∧ lane ≠ .reset u := by
  constructor
  · rintro rfl
    exact hu h
  · rintro rfl
    exact hu h

theorem Apex.within_ne {apex : Apex} (h : apex.within t) (hu : u ≠ t) :
    apex ≠ .full u ∧ apex ≠ .reset u := by
  constructor
  · rintro rfl
    exact hu h
  · rintro rfl
    exact hu h

/-- What a thread closes after its own lane has changed. -/
theorem setLane_iff {old new : Bool} {own : ℕ} {lane target : Lane}
    (h : ∀ q, g.lane q = target ↔ old = true ∧ q = own) (hself : lane = target ↔ new = true)
    (q : ℕ) : (g.setLane own lane).lane q = target ↔ new = true ∧ q = own := by
  by_cases hq : q = own
  · subst hq
    simp [Ghost.setLane, hself]
  · simp [Ghost.setLane, hq, h q]

theorem closes_setLane (hold : (g.lane shard).within t)
    (hnew : lane.within t) (hu : u ≠ t) : Closes u g (g.setLane shard lane) := by
  have hold' := Lane.within_ne hold hu
  have hnew' := Lane.within_ne hnew hu
  refine ⟨fun q => ?_, fun q => ?_, .rfl, .rfl⟩ <;> by_cases hq : q = shard
  · subst hq
    simp [Ghost.setLane, hold', hnew']
  · simp [Ghost.setLane, hq]
  · subst hq
    simp [Ghost.setLane, hold', hnew']
  · simp [Ghost.setLane, hq]

theorem closes_setApex {apex : Apex} (hold : g.apex.within t) (hnew : apex.within t)
    (hu : u ≠ t) : Closes u g (g.setApex apex) := by
  have hold' := Apex.within_ne hold hu
  have hnew' := Apex.within_ne hnew hu
  exact ⟨fun _ => .rfl, fun _ => .rfl, by simp [Ghost.setApex, hold', hnew'],
    by simp [Ghost.setApex, hold', hnew']⟩

/-! ## What one step preserves -/

/-- The step of participant `t` to `s'` and `pc` re-establishes the outline. -/
def Kept (cfg : Config) (t : ℕ) (s : Shared) (g : Ghost) (s' : Shared) (pc : Pc) : Prop :=
  ∃ g', Inv cfg s' g' ∧ Local cfg t s' g' pc ∧
    ∀ u, u ≠ t → u < cfg.participants → Rely u s g s' g'

theorem out_kept (hG : Inv cfg s g) (hl : Local cfg t s g .out) :
    Kept cfg t s g (s.enter t) .load := by
  obtain ⟨hcame, hent, hret⟩ := hl.here
  refine ⟨g, ⟨hG.generation, hG.lane, hG.beyond, hG.apex⟩,
    ⟨hl.full, hl.reset, hl.apex_full, hl.apex_reset, hcame, ?_, hret⟩, fun u hu _ => ?_⟩
  · simp [Shared.enter, hent]
  · exact ⟨update_of_ne hu _ _, rfl, .refl u g, .inl ⟨rfl, rfl⟩⟩

theorem load_kept (hG : Inv cfg s g) (hl : Local cfg t s g .load) :
    Kept cfg t s g s (.arrive s.generation) :=
  ⟨g, hG, ⟨hl.full, hl.reset, hl.apex_full, hl.apex_reset, hl.here, hG.generation⟩,
    fun u _ _ => ⟨rfl, rfl, .refl u g, .inl ⟨rfl, rfl⟩⟩⟩

/-- An arrival counts once in its own shard. -/
theorem arrivals_setCame_self (ht : t < cfg.participants) (hcame : g.came t = false) :
    arrivals cfg (g.setCame t) (t % cfg.shards) = arrivals cfg g (t % cfg.shards) + 1 := by
  apply tally_mark (b := t) (m := 1) (Nat.zero_le t) (by omega)
  · intro p h1 h2
    obtain rfl : p = t := by omega
    simp [hcame]
  · intro p h1 h2
    obtain rfl : p = t := by omega
    simp [Ghost.setCame]
  · intro p _ _ hp
    have hpt : p ≠ t := by omega
    simp [Ghost.setCame, hpt]

theorem arrivals_setCame_other (hshard : shard ≠ t % cfg.shards) :
    arrivals cfg (g.setCame t) shard = arrivals cfg g shard := by
  apply tally_congr
  intro p _ _
  by_cases hp : p = t
  · subst hp
    simp [hshard.symm]
  · simp [Ghost.setCame, hp]

/-- A step of `t` that changes one shard counter and the state of that lane. -/
theorem lane_kept (g' : Ghost) {shard n : ℕ} (hG : Inv cfg s g)
    (hround : g'.round = g.round) (hapex : g'.apex = g.apex)
    (hcame : ∀ u, u ≠ t → g'.came u = g.came u)
    (hshard : shard < cfg.shards) (hlane : g'.lane = update g.lane shard lane)
    (harr : ∀ q, q ≠ shard → arrivals cfg g' q = arrivals cfg g q)
    (hold : g.lane shard ≠ .counted ∧ (g.lane shard).within t)
    (hnew : lane ≠ .counted ∧ lane.within t)
    (hself : LaneOk cfg (s.setShard shard n) g' shard)
    (hl : Local cfg t (s.setShard shard n) g' pc) : Kept cfg t s g (s.setShard shard n) pc := by
  refine ⟨g', ⟨hround ▸ hG.generation, fun q hq => ?_, fun q hq => ?_, ?_⟩, hl, fun u hu _ => ?_⟩
  · by_cases h : q = shard
    · subst h
      exact hself
    · have hq := hG.lane q hq
      unfold LaneOk at hq ⊢
      rw [hlane, update_of_ne h, harr q h]
      simpa [Shared.setShard, h] using hq
  · rw [hlane, update_of_ne (by omega)]
    exact hG.beyond q hq
  · have hcount : countedLanes cfg g' = countedLanes cfg g := by
      apply tally_congr
      intro q _ _
      rw [hlane]
      by_cases hq : q = shard
      · subst hq
        simp [hold.1, hnew.1]
      · simp [hq]
    have hap := hG.apex
    unfold ApexOk at hap ⊢
    rwa [hcount, hapex]
  · refine ⟨rfl, rfl, ?_, .inl ⟨hround, hcame u hu⟩⟩
    have hcl := closes_setLane hold.2 hnew.2 hu
    refine ⟨fun q => ?_, fun q => ?_, by rw [hapex], by rw [hapex]⟩
    · rw [hlane]
      exact hcl.full q
    · rw [hlane]
      exact hcl.reset q

theorem arrive_kept (hG : Inv cfg s g)
    (hl : Local cfg t s g (.arrive generation)) (ht : t < cfg.participants) :
    Kept cfg t s g (s.setShard (t % cfg.shards) (s.shards (t % cfg.shards) + 1))
      (if s.shards (t % cfg.shards) + 1 = cfg.quota (t % cfg.shards) then .resetShard generation
        else .spin generation) := by
  obtain ⟨⟨hcame, hent, hret⟩, hgen⟩ := hl.here
  have hopen := lane_opened hG ht hcame
  have hlane := hG.lane _ (shard_lt cfg t)
  simp only [LaneOk, hopen] at hlane
  have hself := arrivals_setCame_self ht hcame
  have hcalling : Calling s (g.setCame t) t true := ⟨by simp [Ghost.setCame], hent, hret⟩
  have hother : ∀ u, u ≠ t → (g.setCame t).came u = g.came u :=
    fun u hu => update_of_ne hu _ _
  have hkept : ∀ lane pc, lane ≠ .counted ∧ lane.within t →
      LaneOk cfg (s.setShard (t % cfg.shards) (s.shards (t % cfg.shards) + 1))
        ((g.setCame t).setLane (t % cfg.shards) lane) (t % cfg.shards) →
      Local cfg t (s.setShard (t % cfg.shards) (s.shards (t % cfg.shards) + 1))
        ((g.setCame t).setLane (t % cfg.shards) lane) pc →
      Kept cfg t s g (s.setShard (t % cfg.shards) (s.shards (t % cfg.shards) + 1)) pc := by
    intro lane pc hnew hok hloc
    refine lane_kept ((g.setCame t).setLane (t % cfg.shards) lane) hG rfl rfl hother
      (shard_lt cfg t) rfl (fun q hq => ?_) ?_ hnew hok hloc
    · exact arrivals_setCame_other hq
    · rw [hopen]
      exact ⟨by simp, trivial⟩
  have hshards : (s.setShard (t % cfg.shards) (s.shards (t % cfg.shards) + 1)).shards
      (t % cfg.shards) = arrivals cfg (g.setCame t) (t % cfg.shards) := by
    simp [Shared.setShard, hself, hlane.1]
  split
  · -- the last arrival of the shard closes it
    rename_i hfull
    rw [quota_eq (shard_lt cfg t), hlane.1, ← hself] at hfull
    apply hkept (.full t) _ ⟨by simp, rfl⟩
    · simp only [LaneOk, Ghost.setLane, update_self]
      exact ⟨hshards.trans hfull, hfull⟩
    · exact ⟨setLane_iff (g := g.setCame t) hl.full (by simp [Pc.fills]),
        setLane_iff (g := g.setCame t) hl.reset (by simp [Pc.roots]),
        hl.apex_full, hl.apex_reset, hcalling, hgen⟩
  · rename_i hfull
    rw [quota_eq (shard_lt cfg t), hlane.1] at hfull
    have hsame : (g.setCame t).setLane (t % cfg.shards) .opened = g.setCame t := by
      simp [Ghost.setLane, Ghost.setCame, ← hopen]
    apply hkept .opened _ ⟨by simp, trivial⟩
    · simp only [LaneOk, Ghost.setLane, update_self]
      refine ⟨hshards, ?_⟩
      show arrivals cfg (g.setCame t) _ < _
      omega
    · rw [hsame]
      exact { hl with here := .inl ⟨hcalling, hgen⟩ }

/-- The lane that `t` has filled is its own. -/
theorem resetShard_kept (hG : Inv cfg s g)
    (hl : Local cfg t s g (.resetShard generation)) :
    Kept cfg t s g (s.setShard (t % cfg.shards) 0) (.arriveRoot generation) := by
  have hfull : g.lane (t % cfg.shards) = .full t := (hl.full _).mpr ⟨rfl, rfl⟩
  have hlane := hG.lane _ (shard_lt cfg t)
  simp only [LaneOk, hfull] at hlane
  apply lane_kept (g.setLane (t % cfg.shards) (.reset t)) hG rfl rfl (fun _ _ => rfl)
    (shard_lt cfg t) rfl (fun _ _ => rfl) (by rw [hfull]; exact ⟨by simp, rfl⟩) ⟨by simp, rfl⟩
  · simp only [LaneOk, Ghost.setLane, update_self, Shared.setShard]
    exact ⟨trivial, hlane.2⟩
  · exact ⟨setLane_iff hl.full (by simp [Pc.fills]), setLane_iff hl.reset (by simp [Pc.roots]),
      hl.apex_full, hl.apex_reset, hl.here⟩

/-- Counting the lane of `t` in the root. -/
theorem countedLanes_setLane (hold : g.lane (t % cfg.shards) ≠ .counted) :
    countedLanes cfg (g.setLane (t % cfg.shards) .counted) = countedLanes cfg g + 1 := by
  have hlt := shard_lt cfg t
  apply tally_mark (b := t % cfg.shards) (m := 1) (Nat.zero_le _) (by omega)
  · intro p h1 h2
    obtain rfl : p = t % cfg.shards := by omega
    simp [hold]
  · intro p h1 h2
    obtain rfl : p = t % cfg.shards := by omega
    simp [Ghost.setLane]
  · intro p _ _ hp
    have hpt : p ≠ t % cfg.shards := by omega
    simp [Ghost.setLane, hpt]

/-- Only the counter of the shard decides about a lane. -/
theorem laneOk_congr (hshards : s'.shards shard = s.shards shard)
    (hlane : g'.lane shard = g.lane shard) (hcame : g'.came = g.came)
    (h : LaneOk cfg s g shard) : LaneOk cfg s' g' shard := by
  have harr : arrivals cfg g' shard = arrivals cfg g shard := by
    unfold arrivals
    rw [hcame]
  unfold LaneOk at h ⊢
  rwa [hlane, hshards, harr]

theorem arriveRoot_kept (hG : Inv cfg s g)
    (hl : Local cfg t s g (.arriveRoot generation)) :
    Kept cfg t s g (s.setRoot (s.root + 1))
      (if s.root + 1 = cfg.shards then .resetRoot else .spin generation) := by
  have hreset : g.lane (t % cfg.shards) = .reset t := (hl.reset _).mpr ⟨rfl, rfl⟩
  have hlane := hG.lane _ (shard_lt cfg t)
  have hnot : g.lane (t % cfg.shards) ≠ .counted := by simp [hreset]
  have hopen := apex_opened hG (shard_lt cfg t) hnot
  have hcount : countedLanes cfg (g.setLane (t % cfg.shards) .counted) = _ :=
    countedLanes_setLane hnot
  have hapex := hG.apex
  simp only [ApexOk, hopen] at hapex
  simp only [LaneOk, hreset] at hlane
  have hlanes : ∀ apex, ∀ q < cfg.shards, LaneOk cfg (s.setRoot (s.root + 1))
      ((g.setLane (t % cfg.shards) .counted).setApex apex) q := by
    intro apex q hq
    by_cases h : q = t % cfg.shards
    · subst h
      simp only [LaneOk, Ghost.setLane, Ghost.setApex, update_self]
      exact hlane
    · exact laneOk_congr rfl (update_of_ne h _ _) rfl (hG.lane q hq)
  have hbeyond : ∀ q, cfg.shards ≤ q →
      (g.setLane (t % cfg.shards) .counted).lane q = .opened := by
    intro q hq
    have hlt := shard_lt cfg t
    rw [← hG.beyond q hq]
    exact update_of_ne (by omega) _ _
  have hrely : ∀ apex, apex.within t → ∀ u, u ≠ t → u < cfg.participants → Rely u s g
      (s.setRoot (s.root + 1)) ((g.setLane (t % cfg.shards) .counted).setApex apex) := by
    intro apex hw u hu _
    refine ⟨rfl, rfl, ?_, .inl ⟨rfl, rfl⟩⟩
    have hw' : (g.lane (t % cfg.shards)).within t := by rw [hreset]; rfl
    have hcounted : Lane.counted.within t := trivial
    apply (closes_setLane hw' hcounted hu).trans
    exact closes_setApex (by rw [show (g.setLane _ _).apex = g.apex from rfl, hopen]; trivial) hw hu
  split
  · -- the last shard closes the root
    rename_i hfull
    refine ⟨(g.setLane (t % cfg.shards) .counted).setApex (.full t),
      ⟨hG.generation, hlanes _, hbeyond, ?_⟩, ?_, hrely _ rfl⟩
    · simp only [ApexOk, Ghost.setApex, Shared.setRoot]
      exact ⟨hfull, hcount.trans (hapex.1 ▸ hfull)⟩
    · refine ⟨setLane_iff hl.full (by simp [Pc.fills]), setLane_iff hl.reset (by simp [Pc.roots]),
        ?_, ?_, hl.here.1⟩
      · simp [Ghost.setApex, Pc.tops]
      · simp [Ghost.setApex, Pc.publishes]
  · refine ⟨(g.setLane (t % cfg.shards) .counted).setApex .opened,
      ⟨hG.generation, hlanes _, hbeyond, ?_⟩, ?_, hrely _ trivial⟩
    · simp only [ApexOk, Ghost.setApex, Shared.setRoot]
      have hc := hcount
      show _ = countedLanes cfg (g.setLane _ _) ∧ countedLanes cfg (g.setLane _ _) < _
      omega
    · refine ⟨setLane_iff hl.full (by simp [Pc.fills]), setLane_iff hl.reset (by simp [Pc.roots]),
        ?_, ?_, .inl hl.here⟩
      · simp [Ghost.setApex, Pc.tops]
      · simp [Ghost.setApex, Pc.publishes]

theorem resetRoot_kept (hG : Inv cfg s g) (hl : Local cfg t s g .resetRoot) :
    Kept cfg t s g (s.setRoot 0) .publish := by
  have hfull : g.apex = .full t := hl.apex_full.mpr rfl
  have hapex := hG.apex
  simp only [ApexOk, hfull] at hapex
  refine ⟨g.setApex (.reset t), ⟨hG.generation, fun q hq => ?_, hG.beyond, ?_⟩, ?_,
    fun u hu _ => ?_⟩
  · exact laneOk_congr rfl rfl rfl (hG.lane q hq)
  · simp only [ApexOk, Ghost.setApex, Shared.setRoot]
    exact ⟨trivial, hapex.2⟩
  · exact ⟨hl.full, hl.reset, by simp [Ghost.setApex, Pc.tops],
      by simp [Ghost.setApex, Pc.publishes], hl.here⟩
  · exact ⟨rfl, rfl, closes_setApex (by rw [hfull]; rfl) rfl hu, .inl ⟨rfl, rfl⟩⟩

/-- At the publication every counter is zero: the lanes are counted and the root
is reset. -/
theorem publish_zero (hG : Inv cfg s g) (hl : Local cfg t s g .publish) :
    s.root = 0 ∧ ∀ shard, shard < cfg.shards → s.shards shard = 0 := by
  have hreset : g.apex = .reset t := hl.apex_reset.mpr rfl
  have hapex := hG.apex
  simp only [ApexOk, hreset] at hapex
  refine ⟨hapex.1, fun shard hshard => ?_⟩
  have hcounted := tally_eq_iff.mp hapex.2 shard (Nat.zero_le _) (by omega)
  have hlane := hG.lane shard hshard
  simp only [LaneOk, of_decide_eq_true hcounted] at hlane
  exact hlane.1

/-- The publication opens the next round: everybody has arrived, and nobody but
`t` has anything left to close. -/
theorem publish_kept (hn : 2 ≤ cfg.participants) (hG : Inv cfg s g)
    (hl : Local cfg t s g .publish) :
    Kept cfg t s g ((s.setGeneration ((s.generation + 1) % cfg.word)).leave t) .out := by
  have hreset : g.apex = .reset t := hl.apex_reset.mpr rfl
  obtain ⟨hroot, hshards⟩ := publish_zero hG hl
  obtain ⟨_, hent, hret⟩ := hl.here
  have hapex := hG.apex
  simp only [ApexOk, hreset] at hapex
  have hlanes : ∀ q, g.lane q = .counted ∨ g.lane q = .opened := by
    intro q
    by_cases hq : q < cfg.shards
    · have h := tally_eq_iff.mp hapex.2 q (Nat.zero_le _) (by omega)
      exact .inl (by simpa using h)
    · exact .inr (hG.beyond q (by omega))
  have hzero : ∀ q, arrivals cfg g.next q = 0 := by
    intro q
    apply tally_eq_zero
    intro p _ _
    simp [Ghost.next]
  refine ⟨g.next, ⟨?_, fun q hq => ?_, fun _ _ => rfl, ?_⟩, ?_, fun u hu hlt => ?_⟩
  · simp only [Shared.leave, Shared.setGeneration, Ghost.next, hG.generation]
    exact Nat.mod_add_mod _ _ _
  · simp only [LaneOk, Ghost.next, Shared.leave, Shared.setGeneration]
    have hz := hzero q
    have hpos := members_pos hn hq
    refine ⟨(hshards q hq).trans hz.symm, ?_⟩
    show arrivals cfg g.next q < _
    omega
  · have hz : countedLanes cfg g.next = 0 := by
      apply tally_eq_zero
      intro p _ _
      simp [Ghost.next]
    simp only [ApexOk, Ghost.next, Shared.leave, Shared.setGeneration]
    refine ⟨hroot.trans hz.symm, ?_⟩
    show countedLanes cfg g.next < _
    rw [hz]
    exact shards_pos cfg
  · refine ⟨fun q => ?_, fun q => ?_, ?_, ?_, rfl, hent, ?_⟩
    · simp [Ghost.next, Pc.fills]
    · simp [Ghost.next, Pc.roots]
    · simp [Ghost.next, Pc.tops]
    · simp [Ghost.next, Pc.publishes]
    · simp [Shared.leave, Shared.setGeneration, Ghost.next, hret]
  · have hfull : ∀ q, g.lane q ≠ .full u ∧ g.lane q ≠ .reset u := by
      intro q
      rcases hlanes q with h | h <;> simp [h]
    have htop : g.apex ≠ .full u ∧ g.apex ≠ .reset u := by
      rw [hreset]
      exact ⟨by simp, by simpa using hu.symm⟩
    refine ⟨rfl, update_of_ne hu _ _, ⟨fun q => ?_, fun q => ?_, ?_, ?_⟩,
      .inr ⟨rfl, all_came hG hapex.2 hlt, rfl, hfull, htop⟩⟩
    · simp [Ghost.next, hfull q]
    · simp [Ghost.next, hfull q]
    · simp [Ghost.next, htop]
    · simp [Ghost.next, htop]

/-- A spinning participant leaves when the generation has moved on, so only one
that has been released does. -/
theorem spin_kept (hG : Inv cfg s g) (hl : Local cfg t s g (.spin generation))
    (hne : s.generation ≠ generation) : Kept cfg t s g (s.leave t) .out := by
  rcases hl.here with ⟨_, hgen⟩ | ⟨hcame, hent, hret⟩
  · exact absurd (hG.generation.trans hgen.symm) hne
  · refine ⟨g, ⟨hG.generation, hG.lane, hG.beyond, hG.apex⟩,
      ⟨hl.full, hl.reset, hl.apex_full, hl.apex_reset, hcame, hent, ?_⟩, fun u hu _ => ?_⟩
    · simpa [Shared.leave] using hret
    · exact ⟨rfl, update_of_ne hu _ _, .refl u g, .inl ⟨rfl, rfl⟩⟩

/-! ## Every run -/

theorem step_kept (hn : 2 ≤ cfg.participants) {pc pc' : Pc} {a : Unit} (hG : Inv cfg s g)
    (ht : t < cfg.participants) (hl : Local cfg t s g pc)
    (hs : step cfg t a s pc = some (s', pc')) : Kept cfg t s g s' pc' := by
  apply Post.of_pair hs
  simp only [step, if_pos ht, if_neg (show ¬ cfg.participants ≤ 1 by omega)]
  cases pc with
  | out => exact out_kept hG hl
  | load => exact load_kept hG hl
  | arrive generation => exact arrive_kept hG hl ht
  | resetShard generation => exact resetShard_kept hG hl
  | arriveRoot generation => exact arriveRoot_kept hG hl
  | resetRoot => exact resetRoot_kept hG hl
  | publish => exact publish_kept hn hG hl
  | spin generation =>
    dsimp only
    split
    · exact ⟨g, hG, hl, fun u _ _ => ⟨rfl, rfl, .refl u g, .inl ⟨rfl, rfl⟩⟩⟩
    · rename_i hne
      exact spin_kept hG hl hne

theorem init_kept (hn : 2 ≤ cfg.participants) : ∃ g, Inv cfg Shared.new g ∧
    ∀ t, t < cfg.participants → Local cfg t Shared.new g .out := by
  have hzero : ∀ shard, arrivals cfg ⟨0, fun _ => false, fun _ => .opened, .opened⟩ shard = 0 := by
    intro shard
    apply tally_eq_zero
    intro p _ _
    simp
  have hcount : countedLanes cfg ⟨0, fun _ => false, fun _ => .opened, .opened⟩ = 0 := by
    apply tally_eq_zero
    intro p _ _
    simp
  refine ⟨⟨0, fun _ => false, fun _ => .opened, .opened⟩,
    ⟨(Nat.zero_mod _).symm, fun shard hshard => ?_, fun _ _ => rfl, ?_⟩, fun t _ => ?_⟩
  · simp only [LaneOk, hzero]
    exact ⟨rfl, members_pos hn hshard⟩
  · simp only [ApexOk, hcount]
    exact ⟨rfl, shards_pos cfg⟩
  · exact ⟨by simp [Pc.fills], by simp [Pc.roots], by simp [Pc.tops], by simp [Pc.publishes],
      rfl, rfl, rfl⟩

/-- The outline of every run. -/
theorem outline (hn : 2 ≤ cfg.participants) {c : Conf ℕ Shared Pc}
    (hc : (system cfg).Reachable c) :
    ∃ g, Inv cfg c.sh g ∧ ∀ t, t < cfg.participants → Local cfg t c.sh g (c.pc t) := by
  refine System.rely_guarantee (system cfg) (Inv cfg)
    (fun t s g pc => t < cfg.participants → Local cfg t s g pc)
    (fun u s g s' g' => u < cfg.participants → Rely u s g s' g') (init_kept hn) ?_ ?_ hc
  · rintro t s g pc s' pc' hG hl ⟨a, hs⟩
    have ht : t < cfg.participants := by
      by_contra hge
      simp [step, hge] at hs
    obtain ⟨g', hG', hl', hR⟩ := step_kept hn hG ht (hl ht) hs
    exact ⟨g', hG', fun _ => hl', hR⟩
  · intro u s g s' g' pc _ _ hR hl hu
    exact local_stable (hl hu) (hR hu)

/-- A participant has been released from the rounds that are over, and from no other. -/
theorem counts (hl : Local cfg t s g pc) : s.returned t ≤ g.round ∧ g.round ≤ s.entered t := by
  have hh := hl.here
  cases pc <;> simp only [At, Calling, Leaving] at hh <;> omega

theorem shards_le (hG : Inv cfg s g) (hshard : shard < cfg.shards) :
    s.shards shard ≤ cfg.quota shard := by
  have hlane := hG.lane shard hshard
  rw [quota_eq hshard]
  unfold LaneOk at hlane
  split at hlane <;> omega

theorem root_le (hG : Inv cfg s g) : s.root ≤ cfg.shards := by
  have hapex := hG.apex
  unfold ApexOk at hapex
  split at hapex <;> omega

/-- **The barrier.**  In every run nobody has returned from a call of `wait` that
somebody else has not entered, no counter exceeds its quota, and when a generation
is published every counter is zero. -/
theorem rendezvous (cfg : Config) (hn : 2 ≤ cfg.participants) {c : Conf ℕ Shared Pc}
    (hc : (system cfg).Reachable c) :
    (∀ t u, t < cfg.participants → u < cfg.participants →
      c.sh.returned t ≤ c.sh.entered u) ∧
    (∀ t, t < cfg.participants → c.pc t = .publish →
      c.sh.root = 0 ∧ ∀ shard, shard < cfg.shards → c.sh.shards shard = 0) ∧
    (∀ shard, shard < cfg.shards → c.sh.shards shard ≤ cfg.quota shard) ∧
    c.sh.root ≤ cfg.shards := by
  obtain ⟨g, hG, hl⟩ := outline hn hc
  refine ⟨fun t u ht hu => ?_, fun t ht hpc => ?_, fun shard => shards_le hG, root_le hG⟩
  · exact (counts (hl t ht)).1.trans (counts (hl u hu)).2
  · exact publish_zero hG (hpc ▸ hl t ht)

/-- Nine participants in eight shards: the last one fills the shard it shares with
the first, and closes the root. -/
theorem rendezvous_nine : ∃ c, (system ⟨9, 2 ^ 64⟩).Reachable c ∧ c.pc 8 = .publish ∧
    c.sh.entered 8 = 1 ∧ c.sh.root = 0 ∧ ∀ shard, shard < 8 → c.sh.shards shard = 0 := by
  obtain ⟨c, hruns, hpc, hent⟩ : ∃ c, System.runs (step ⟨9, 2 ^ 64⟩)
      ((List.replicate 3 0 ++ (List.range' 1 7).flatMap (List.replicate 5) ++
        List.replicate 6 8).map fun t => (t, ()))
      (system ⟨9, 2 ^ 64⟩).start = some c ∧ c.pc 8 = .publish ∧ c.sh.entered 8 = 1 :=
    ⟨_, rfl, rfl, rfl⟩
  have hc : (system ⟨9, 2 ^ 64⟩).Reachable c := System.runs_reachable .start hruns
  obtain ⟨_, hzero, _⟩ := rendezvous ⟨9, 2 ^ 64⟩ (by decide) hc
  exact ⟨c, hc, hpc, hent, hzero 8 (by decide) hpc⟩

end Bench.Barrier
