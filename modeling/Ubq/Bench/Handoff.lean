/-
# The rounds of the benchmark harness

`run_handoff_round` and `run_dequeue_round` of `src/bench_harness/mod.rs`, with
`send_producer_items` and `receive_consumer_items`.  The queue under test is an
atomic FIFO: `send_value`, `try_recv_value` and, for a queue with batch operations
of its own (`wholesale`), `send_batch` and `try_recv_batch` are one step each.  Otherwise a
batch is the default method of the trait, one value after the other.

The start barriers only delay the threads, so every thread may start at once.
`sent`, `taken` and `settled` are history.

A consumer leaves when it has seen the queue empty and then finds the flag set.
The two observations are made at different moments, and a value that is sent in
between stays behind (`left_behind`).  What the flag would have to guarantee is
that the queue was seen empty after the last producer had returned (`Fresh`): under
this condition every round drains the queue.
-/
import Ubq.Interleave
import Ubq.Tally

namespace Bench.Handoff

open Function Interleave

/-- Which round is run.  A dequeue round finds the queue filled. -/
inductive Kind
  | handoff
  | dequeue (queue : List ℕ) (expected : ℕ)

/-- The parameters of a round. -/
structure Config where
  kind : Kind
  producers : ℕ
  consumers : ℕ
  itemsPerProducer : ℕ
  batchSize : Option ℕ
  batch_pos : ∀ size, batchSize = some size → 1 ≤ size
  /-- The queue has batch operations of its own. -/
  wholesale : Bool

namespace Config

/-- The producer threads of the round. -/
def senders (cfg : Config) : ℕ :=
  match cfg.kind with
  | .handoff => cfg.producers
  | .dequeue _ _ => 0

/-- The values that are in the queue at the start. -/
def prefilled (cfg : Config) : List ℕ :=
  match cfg.kind with
  | .handoff => []
  | .dequeue queue _ => queue

/-- `total_items`, or the parameter of `run_dequeue_round`. -/
def expected (cfg : Config) : ℕ :=
  match cfg.kind with
  | .handoff => cfg.itemsPerProducer * cfg.producers
  | .dequeue _ expected => expected

/-- The values that one call asks for. -/
def request (cfg : Config) : ℕ := cfg.batchSize.getD 1

/-- The values that one atomic operation moves at most. -/
def stride (cfg : Config) : ℕ := if cfg.wholesale then cfg.request else 1

end Config

/-! ## The machine -/

/-- The threads of a round. -/
inductive Thread
  | producer (id : ℕ)
  | consumer (id : ℕ)
  | main
  deriving DecidableEq

/-- The queue, the flag and what the threads have done. -/
structure Shared where
  queue : List ℕ
  producersDone : Bool
  /-- The producer threads that have returned, and what the consumer threads returned. -/
  returned : ℕ → Bool
  result : ℕ → Option ℕ
  /-- Values sent by a producer, and taken by a consumer. -/
  sent : ℕ → ℕ
  taken : ℕ → ℕ
  /-- The last empty receive of a consumer came after the return of every producer. -/
  settled : ℕ → Bool

/-- The next operation of a thread. -/
inductive Pc
  | idle
  | send (first : ℕ)
  | recv (consumed received : ℕ)
  | flag (consumed : ℕ)
  | joinProducers (id : ℕ)
  | joinConsumers (id consumed : ℕ)
  | report (result : Except String ℕ)
  | exited

/-- Producer `i` sends. -/
def Shared.push (s : Shared) (i : ℕ) (values : List ℕ) : Shared :=
  { s with
    queue := s.queue ++ values
    sent := update s.sent i (s.sent i + values.length) }

/-- Consumer `j` receives at most `n` values. -/
def Shared.pop (s : Shared) (j n : ℕ) : Shared :=
  { s with
    queue := s.queue.drop n
    taken := update s.taken j (s.taken j + (s.queue.take n).length) }

/-- Consumer `j` has found the queue empty. -/
def Shared.settle (s : Shared) (j : ℕ) (b : Bool) : Shared :=
  { s with settled := update s.settled j b }

/-- Producer `i` returns. -/
def Shared.producerReturns (s : Shared) (i : ℕ) : Shared :=
  { s with returned := update s.returned i true }

/-- Consumer `j` returns its count. -/
def Shared.consumerReturns (s : Shared) (j consumed : ℕ) : Shared :=
  { s with result := update s.result j (some consumed) }

/-- Whether every producer thread has returned. -/
def Shared.allReturned (cfg : Config) (s : Shared) : Bool :=
  (List.range cfg.senders).all s.returned

/-- A step of `send_producer_items`: the next value, or the next batch. -/
def stepProducer (cfg : Config) (i : ℕ) (s : Shared) : Pc → Option (Shared × Pc)
  | .idle => if i < cfg.senders then some (s, .send 0) else none
  | .send first =>
    let base := i * cfg.itemsPerProducer
    if first < cfg.itemsPerProducer then
      let next := min (first + cfg.stride) cfg.itemsPerProducer
      some (s.push i (List.range' (base + first) (next - first)), .send next)
    else some (s.producerReturns i, .exited)
  | _ => none

/-- A step of `receive_consumer_items`.  A batch of the default method goes on until
it is complete or the queue is empty; the flag is loaded after an empty batch. -/
def stepConsumer (cfg : Config) (j : ℕ) (s : Shared) : Pc → Option (Shared × Pc)
  | .idle => if j < cfg.consumers then some (s, .recv 0 0) else none
  | .recv consumed received =>
    if s.queue.take cfg.stride = [] then
      if received = 0 then some (s.settle j (s.allReturned cfg), .flag consumed)
      else some (s, .recv (consumed + received) 0)
    else
      let received' := received + (s.queue.take cfg.stride).length
      if cfg.stride = cfg.request ∨ received' = cfg.request then
        some (s.pop j cfg.stride, .recv (consumed + received') 0)
      else some (s.pop j cfg.stride, .recv consumed received')
  | .flag consumed =>
    if s.producersDone then some (s.consumerReturns j consumed, .exited)
    else some (s, .recv consumed 0)
  | _ => none

/-- The error of the round. -/
def mismatch (cfg : Config) (consumed : ℕ) : String :=
  (match cfg.kind with
    | .handoff => "handoff"
    | .dequeue _ _ => "dequeue") ++ " integrity mismatch: expected " ++ toString cfg.expected ++
    " items, consumed " ++ toString consumed

/-- A step of the thread that runs the round.  A join waits. -/
def stepMain (cfg : Config) (s : Shared) : Pc → Option (Shared × Pc)
  | .idle =>
    match cfg.kind with
    | .handoff => some (s, .joinProducers 0)
    | .dequeue _ _ => some (s, .joinConsumers 0 0)
  | .joinProducers i =>
    if i < cfg.senders then
      if s.returned i then some (s, .joinProducers (i + 1)) else none
    else some ({ s with producersDone := true }, .joinConsumers 0 0)
  | .joinConsumers j consumed =>
    if j < cfg.consumers then
      match s.result j with
      | some n => some (s, .joinConsumers (j + 1) (consumed + n))
      | none => none
    else if consumed = cfg.expected then some (s, .report (.ok consumed))
    else some (s, .report (.error (mismatch cfg consumed)))
  | _ => none

/-- One step of a thread. -/
def step (cfg : Config) (t : Thread) (_ : Unit) (s : Shared) (pc : Pc) : Option (Shared × Pc) :=
  match t with
  | .producer i => stepProducer cfg i s pc
  | .consumer j => stepConsumer cfg j s pc
  | .main => stepMain cfg s pc

/-- The flag of a dequeue round is set from the start. -/
def Shared.new (cfg : Config) : Shared where
  queue := cfg.prefilled
  producersDone := match cfg.kind with
    | .handoff => false
    | .dequeue _ _ => true
  returned := fun _ => false
  result := fun _ => none
  sent := fun _ => 0
  taken := fun _ => 0
  settled := fun _ => false

/-- The threads of a round. -/
def system (cfg : Config) : System Thread Shared Pc :=
  .ofStep (Shared.new cfg) .idle (step cfg)

/-- A consumer that leaves has seen the queue empty after the last producer returned. -/
def Fresh : Thread → Shared → Pc → Prop
  | .consumer j, s, .flag _ => s.producersDone = true → s.settled j = true
  | _, _, _ => True

instance (t : Thread) (s : Shared) (pc : Pc) : Decidable (Fresh t s pc) := by
  unfold Fresh
  split <;> infer_instance

/-- The runs in which every consumer that leaves does so after a fresh observation. -/
def fresh (cfg : Config) : System Thread Shared Pc :=
  (system cfg).restrict fun t s pc _ _ => Fresh t s pc

/-! ## The proof outline -/

variable {cfg : Config} {s s' : Shared} {i j : ℕ}
variable {c : Conf Thread Shared Pc} {pc pc' : Pc}

/-- The values of the round: what was there and what was sent is in the queue or
has been taken. -/
structure Inv (cfg : Config) (s : Shared) : Prop where
  conserved : s.queue.length + ∑ k ∈ Finset.range cfg.consumers, s.taken k
    = cfg.prefilled.length + ∑ k ∈ Finset.range cfg.senders, s.sent k
  complete : ∀ k, s.returned k = true → s.sent k = cfg.itemsPerProducer
  settled : ∀ k, s.settled k = true → s.allReturned cfg = true ∧ s.queue = []
  result : ∀ k n, s.result k = some n →
    n = s.taken k ∧ s.allReturned cfg = true ∧ s.queue = []

/-- The assertion of a producer. -/
def AtProducer (cfg : Config) (i : ℕ) (s : Shared) : Pc → Prop
  | .idle => s.sent i = 0 ∧ s.returned i = false
  | .send first => i < cfg.senders ∧ s.sent i = first ∧ first ≤ cfg.itemsPerProducer ∧
    s.returned i = false
  | _ => True

/-- The assertion of a consumer. -/
def AtConsumer (cfg : Config) (j : ℕ) (s : Shared) : Pc → Prop
  | .idle => s.result j = none ∧ s.taken j = 0
  | .recv consumed received => j < cfg.consumers ∧ s.result j = none ∧
    consumed + received = s.taken j
  | .flag consumed => j < cfg.consumers ∧ s.result j = none ∧ consumed = s.taken j ∧
    (cfg.senders = 0 → s.settled j = true)
  | _ => True

/-- The assertion of the thread that runs the round. -/
def AtMain (cfg : Config) (s : Shared) : Pc → Prop
  | .joinProducers i => ∀ k, k < i → s.returned k = true
  | .joinConsumers j consumed => j ≤ cfg.consumers ∧
    (∀ k, k < j → (s.result k).isSome = true) ∧
    consumed = ∑ k ∈ Finset.range j, (s.result k).getD 0
  | .report (.error _) => (∀ k, k < cfg.consumers → (s.result k).isSome = true) ∧
    ∑ k ∈ Finset.range cfg.consumers, (s.result k).getD 0 ≠ cfg.expected
  | _ => True

/-- The assertion of each kind of thread. -/
def Local (cfg : Config) (t : Thread) (s : Shared) (pc : Pc) : Prop :=
  match t with
  | .producer i => AtProducer cfg i s pc
  | .consumer j => AtConsumer cfg j s pc
  | .main => AtMain cfg s pc

/-- The steps of the others leave a thread's own records alone, and a thread that
has returned has done so for good. -/
def Rely (t : Thread) (s s' : Shared) : Prop :=
  match t with
  | .producer i => s'.sent i = s.sent i ∧ s'.returned i = s.returned i
  | .consumer j => s'.taken j = s.taken j ∧ s'.result j = s.result j ∧ s'.settled j = s.settled j
  | .main => (∀ k, s.returned k = true → s'.returned k = true) ∧
    ∀ k n, s.result k = some n → s'.result k = some n

theorem allReturned_iff :
    s.allReturned cfg = true ↔ ∀ k, k < cfg.senders → s.returned k = true := by
  simp [Shared.allReturned]

theorem isSome_of_rely (h : ∀ k n, s.result k = some n → s'.result k = some n) {k : ℕ}
    (hk : (s.result k).isSome = true) : s'.result k = s.result k := by
  obtain ⟨n, hn⟩ := Option.isSome_iff_exists.mp hk
  rw [hn]
  exact h k n hn

theorem sum_of_rely (h : ∀ k n, s.result k = some n → s'.result k = some n) {n : ℕ}
    (hn : ∀ k, k < n → (s.result k).isSome = true) :
    ∑ k ∈ Finset.range n, (s'.result k).getD 0 = ∑ k ∈ Finset.range n, (s.result k).getD 0 := by
  apply Finset.sum_congr rfl
  intro k hk
  rw [isSome_of_rely h (hn k (Finset.mem_range.mp hk))]

theorem local_stable {t : Thread} {pc : Pc} (hl : Local cfg t s pc) (hR : Rely t s s') :
    Local cfg t s' pc := by
  cases t with
  | producer i =>
    obtain ⟨hsent, hret⟩ := hR
    cases pc <;> simp_all [Local, AtProducer]
  | consumer j =>
    obtain ⟨htaken, hres, hset⟩ := hR
    cases pc <;> simp_all [Local, AtConsumer]
  | main =>
    obtain ⟨hret, hres⟩ := hR
    cases pc with
    | joinProducers i => exact fun k hk => hret k (hl k hk)
    | joinConsumers j consumed =>
      obtain ⟨hle, hsome, hsum⟩ := hl
      refine ⟨hle, fun k hk => ?_, hsum.trans (sum_of_rely hres hsome).symm⟩
      rw [isSome_of_rely hres (hsome k hk)]
      exact hsome k hk
    | report r =>
      cases r with
      | ok n => trivial
      | error e =>
        refine ⟨fun k hk => ?_, ?_⟩
        · rw [isSome_of_rely hres (hl.1 k hk)]
          exact hl.1 k hk
        · rw [sum_of_rely hres hl.1]
          exact hl.2
    | idle | send | recv | flag | exited => trivial

/-! ## What one step preserves -/

/-- The step of `t` to `s'` and `pc` re-establishes the outline. -/
def Kept (cfg : Config) (t : Thread) (s s' : Shared) (pc : Pc) : Prop :=
  Inv cfg s' ∧ Local cfg t s' pc ∧ ∀ u, u ≠ t → Rely u s s'

theorem Rely.refl (u : Thread) (s : Shared) : Rely u s s := by
  cases u with
  | producer i => exact ⟨rfl, rfl⟩
  | consumer j => exact ⟨rfl, rfl, rfl⟩
  | main => exact ⟨fun _ h => h, fun _ _ h => h⟩

theorem stride_pos (cfg : Config) : 0 < cfg.stride := by
  unfold Config.stride Config.request
  split
  · cases hb : cfg.batchSize with
    | none => simp
    | some size => exact cfg.batch_pos size hb
  · exact Nat.one_pos

/-- While a producer is at work nobody has seen the queue drained. -/
theorem push_kept {first next : ℕ} {values : List ℕ} (hG : Inv cfg s)
    (hl : AtProducer cfg i s (.send first)) (hnext : first + values.length = next)
    (hlen : next ≤ cfg.itemsPerProducer) :
    Kept cfg (.producer i) s (s.push i values) (.send next) := by
  obtain ⟨hi, hsent, hle, hret⟩ := hl
  have hbusy : s.allReturned cfg ≠ true := by
    intro h
    simp [allReturned_iff.mp h i hi] at hret
  refine ⟨⟨?_, fun k hk => ?_, fun k hk => ?_, fun k n hk => ?_⟩, ⟨hi, ?_, hlen, hret⟩,
    fun u hu => ?_⟩
  · have h := hG.conserved
    simp only [Shared.push, List.length_append, sum_update_range hi rfl]
    omega
  · by_cases h : k = i
    · subst h
      simp [show (s.push k values).returned k = s.returned k from rfl, hret] at hk
    · exact (update_of_ne h _ _).trans (hG.complete k hk)
  · exact absurd (hG.settled k hk).1 hbusy
  · exact absurd (hG.result k n hk).2.1 hbusy
  · simp [Shared.push, hsent, hnext]
  · cases u with
    | producer k =>
      have hk : k ≠ i := fun h => hu (h ▸ rfl)
      exact ⟨update_of_ne hk _ _, rfl⟩
    | consumer k => exact ⟨rfl, rfl, rfl⟩
    | main => exact ⟨fun _ h => h, fun _ _ h => h⟩

/-- One more producer has returned. -/
theorem allReturned_mono (h : s.allReturned cfg = true) :
    (s.producerReturns i).allReturned cfg = true := by
  rw [allReturned_iff] at h ⊢
  intro k hk
  by_cases hki : k = i
  · subst hki
    simp [Shared.producerReturns]
  · simpa [Shared.producerReturns, hki] using h k hk

theorem producerReturns_kept {first : ℕ} (hG : Inv cfg s) (hl : AtProducer cfg i s (.send first))
    (hfirst : ¬ first < cfg.itemsPerProducer) :
    Kept cfg (.producer i) s (s.producerReturns i) .exited := by
  obtain ⟨hi, hsent, hle, hret⟩ := hl
  refine ⟨⟨hG.conserved, fun k hk => ?_, fun k hk => ?_, fun k n hk => ?_⟩, trivial, fun u hu => ?_⟩
  · by_cases h : k = i
    · subst h
      exact hsent.trans (by omega)
    · exact hG.complete k (by simpa [Shared.producerReturns, h] using hk)
  · exact ⟨allReturned_mono (hG.settled k hk).1, (hG.settled k hk).2⟩
  · obtain ⟨hn, hall, hq⟩ := hG.result k n hk
    exact ⟨hn, allReturned_mono hall, hq⟩
  · cases u with
    | producer k =>
      have hk : k ≠ i := fun h => hu (h ▸ rfl)
      exact ⟨rfl, update_of_ne hk _ _⟩
    | consumer k => exact ⟨rfl, rfl, rfl⟩
    | main =>
      refine ⟨fun k hk => ?_, fun _ _ h => h⟩
      by_cases h : k = i
      · subst h
        simp [Shared.producerReturns]
      · simpa [Shared.producerReturns, h] using hk

theorem stepProducer_kept (hG : Inv cfg s) (hl : AtProducer cfg i s pc)
    (hs : stepProducer cfg i s pc = some (s', pc')) : Kept cfg (.producer i) s s' pc' := by
  apply Post.of_pair hs
  cases pc with
  | idle =>
    simp only [stepProducer]
    split
    · rename_i hi
      exact ⟨hG, ⟨hi, hl.1, Nat.zero_le _, hl.2⟩, fun u _ => .refl u s⟩
    · trivial
  | send first =>
    simp only [stepProducer]
    split
    · refine push_kept hG hl ?_ (Nat.min_le_right _ _)
      rw [List.length_range']
      omega
    · rename_i hfirst
      exact producerReturns_kept hG hl hfirst
  | _ => trivial

/-- Taking values keeps them in the account. -/
theorem pop_kept {consumed received consumed' received' : ℕ} (hG : Inv cfg s)
    (hl : AtConsumer cfg j s (.recv consumed received))
    (hcount : consumed' + received'
      = consumed + received + (s.queue.take cfg.stride).length) :
    Kept cfg (.consumer j) s (s.pop j cfg.stride) (.recv consumed' received') := by
  obtain ⟨hj, hres, htaken⟩ := hl
  refine ⟨⟨?_, hG.complete, fun k hk => ?_, fun k n hk => ?_⟩, ⟨hj, hres, ?_⟩, fun u hu => ?_⟩
  · have h := hG.conserved
    simp only [Shared.pop, sum_update_range hj rfl, List.length_drop, List.length_take]
    omega
  · obtain ⟨hall, hq⟩ := hG.settled k hk
    exact ⟨hall, by simp [Shared.pop, hq]⟩
  · obtain ⟨hn, hall, hq⟩ := hG.result k n hk
    have hkj : k ≠ j := by
      rintro rfl
      simp [show (s.pop k cfg.stride).result k = s.result k from rfl, hres] at hk
    exact ⟨hn.trans (update_of_ne hkj _ _).symm, hall, by simp [Shared.pop, hq]⟩
  · simp only [Shared.pop, update_self]
    omega
  · cases u with
    | producer k => exact ⟨rfl, rfl⟩
    | consumer k =>
      have hk : k ≠ j := fun h => hu (h ▸ rfl)
      exact ⟨update_of_ne hk _ _, rfl, rfl⟩
    | main => exact ⟨fun _ h => h, fun _ _ h => h⟩

/-- An empty receive, with the producers that have returned by then. -/
theorem settle_kept {consumed : ℕ} (hG : Inv cfg s) (hl : AtConsumer cfg j s (.recv consumed 0))
    (hq : s.queue = []) :
    Kept cfg (.consumer j) s (s.settle j (s.allReturned cfg)) (.flag consumed) := by
  obtain ⟨hj, hres, htaken⟩ := hl
  refine ⟨⟨hG.conserved, hG.complete, fun k hk => ?_, hG.result⟩, ⟨hj, hres, htaken, ?_⟩,
    fun u hu => ?_⟩
  · by_cases h : k = j
    · subst h
      have hall : s.allReturned cfg = true := by simpa [Shared.settle] using hk
      exact ⟨hall, hq⟩
    · exact hG.settled k (by simpa [Shared.settle, h] using hk)
  · intro hzero
    simp [Shared.settle, Shared.allReturned, hzero]
  · cases u with
    | producer k => exact ⟨rfl, rfl⟩
    | consumer k =>
      have hk : k ≠ j := fun h => hu (h ▸ rfl)
      exact ⟨rfl, rfl, update_of_ne hk _ _⟩
    | main => exact ⟨fun _ h => h, fun _ _ h => h⟩

theorem consumerReturns_kept {consumed : ℕ} (hG : Inv cfg s)
    (hl : AtConsumer cfg j s (.flag consumed)) (hset : s.settled j = true) :
    Kept cfg (.consumer j) s (s.consumerReturns j consumed) .exited := by
  obtain ⟨hj, hres, htaken, _⟩ := hl
  refine ⟨⟨hG.conserved, hG.complete, hG.settled, fun k n hk => ?_⟩, trivial, fun u hu => ?_⟩
  · by_cases h : k = j
    · subst h
      simp only [Shared.consumerReturns, update_self] at hk
      exact ⟨(Option.some.inj hk).symm.trans htaken, hG.settled k hset⟩
    · exact hG.result k n (by simpa [Shared.consumerReturns, h] using hk)
  · cases u with
    | producer k => exact ⟨rfl, rfl⟩
    | consumer k =>
      have hk : k ≠ j := fun h => hu (h ▸ rfl)
      exact ⟨rfl, update_of_ne hk _ _, rfl⟩
    | main =>
      refine ⟨fun _ h => h, fun k n hk => ?_⟩
      have hkj : k ≠ j := by
        rintro rfl
        simp [hres] at hk
      exact (update_of_ne hkj _ _).trans hk

theorem stepConsumer_kept (hG : Inv cfg s) (hl : AtConsumer cfg j s pc)
    (hfresh : Fresh (.consumer j) s pc) (hs : stepConsumer cfg j s pc = some (s', pc')) :
    Kept cfg (.consumer j) s s' pc' := by
  apply Post.of_pair hs
  cases pc with
  | idle =>
    simp only [stepConsumer]
    split
    · rename_i hj
      exact ⟨hG, ⟨hj, hl.1, hl.2.symm⟩, fun u _ => .refl u s⟩
    · trivial
  | recv consumed received =>
    simp only [stepConsumer]
    split
    · rename_i htake
      split
      · rename_i hzero
        subst hzero
        have hpos := stride_pos cfg
        have hq : s.queue = [] := (List.take_eq_nil_iff.mp htake).resolve_left (by omega)
        exact settle_kept hG hl hq
      · exact ⟨hG, ⟨hl.1, hl.2.1, hl.2.2⟩, fun u _ => .refl u s⟩
    · split
      · exact pop_kept hG hl (by omega)
      · exact pop_kept hG hl (by omega)
  | flag consumed =>
    simp only [stepConsumer]
    split
    · rename_i hdone
      exact consumerReturns_kept hG hl (hfresh hdone)
    · exact ⟨hG, ⟨hl.1, hl.2.1, hl.2.2.1⟩, fun u _ => .refl u s⟩
  | _ => trivial

theorem stepMain_kept (hG : Inv cfg s) (hl : AtMain cfg s pc)
    (hs : stepMain cfg s pc = some (s', pc')) : Kept cfg .main s s' pc' := by
  apply Post.of_pair hs
  cases pc with
  | idle =>
    simp only [stepMain]
    split
    · exact ⟨hG, fun k hk => absurd hk (by omega), fun u _ => .refl u s⟩
    · exact ⟨hG, ⟨Nat.zero_le _, fun k hk => absurd hk (by omega), by simp⟩, fun u _ => .refl u s⟩
  | joinProducers i =>
    simp only [stepMain]
    split
    · split
      · rename_i hret
        refine ⟨hG, fun k hk => ?_, fun u _ => .refl u s⟩
        rcases Nat.lt_succ_iff_lt_or_eq.mp hk with h | rfl
        · exact hl k h
        · exact hret
      · trivial
    · refine ⟨⟨hG.conserved, hG.complete, hG.settled, hG.result⟩,
        ⟨Nat.zero_le _, fun k hk => absurd hk (by omega), by simp⟩, fun u hu => ?_⟩
      cases u with
      | producer k => exact ⟨rfl, rfl⟩
      | consumer k => exact ⟨rfl, rfl, rfl⟩
      | main => exact absurd rfl hu
  | joinConsumers j consumed =>
    obtain ⟨hle, hsome, hsum⟩ := hl
    simp only [stepMain]
    split
    · split
      · rename_i hj _ n hn
        refine ⟨hG, ⟨hj, fun k hk => ?_, ?_⟩, fun u _ => .refl u s⟩
        · rcases Nat.lt_succ_iff_lt_or_eq.mp hk with h | rfl
          · exact hsome k h
          · simp [hn]
        · rw [Finset.sum_range_succ, ← hsum, hn]
          exact rfl
      · trivial
    · obtain rfl : j = cfg.consumers := by omega
      split
      · exact ⟨hG, trivial, fun u _ => .refl u s⟩
      · rename_i hne
        exact ⟨hG, ⟨hsome, hsum ▸ hne⟩, fun u _ => .refl u s⟩
  | _ => trivial

/-! ## Every run -/

theorem step_kept {t : Thread} {a : Unit} (hG : Inv cfg s) (hl : Local cfg t s pc)
    (hfresh : Fresh t s pc) (hs : step cfg t a s pc = some (s', pc')) : Kept cfg t s s' pc' := by
  cases t with
  | producer i => exact stepProducer_kept hG hl hs
  | consumer j => exact stepConsumer_kept hG hl hfresh hs
  | main => exact stepMain_kept hG hl hs

theorem init_inv (cfg : Config) : Inv cfg (Shared.new cfg) :=
  ⟨by simp [Shared.new], fun _ h => absurd h (by simp [Shared.new]),
    fun _ h => absurd h (by simp [Shared.new]), fun _ _ h => absurd h (by simp [Shared.new])⟩

theorem init_local (cfg : Config) (t : Thread) : Local cfg t (Shared.new cfg) .idle := by
  cases t with
  | producer i => exact ⟨rfl, rfl⟩
  | consumer j => exact ⟨rfl, rfl⟩
  | main => trivial

/-- The outline holds along every run whose steps are fresh. -/
theorem outline_of {S : System Thread Shared Pc} (hinit : S.init = Shared.new cfg)
    (hidle : S.idle = .idle)
    (hstep : ∀ t s pc s' pc', Inv cfg s → Local cfg t s pc → S.step t s pc s' pc' →
      (∃ a, step cfg t a s pc = some (s', pc')) ∧ Fresh t s pc)
    (hc : S.Reachable c) :
    Inv cfg c.sh ∧ ∀ t, Local cfg t c.sh (c.pc t) := by
  have h := System.rely_guarantee (γ := Unit) S (fun s _ => Inv cfg s)
    (fun t s _ pc => Local cfg t s pc) (fun u s _ s' _ => Rely u s s') ?_ ?_ ?_ hc
  · obtain ⟨_, hG, hl⟩ := h
    exact ⟨hG, hl⟩
  · rw [hinit, hidle]
    exact ⟨(), init_inv cfg, init_local cfg⟩
  · intro t s _ pc s' pc' hG hl hs
    obtain ⟨⟨a, hs⟩, hfresh⟩ := hstep t s pc s' pc' hG hl hs
    exact ⟨(), step_kept hG hl hfresh hs⟩
  · intro u s _ s' _ pc _ _ hR hl
    exact local_stable hl hR

/-- The outline of a handoff round. -/
theorem outline_fresh (hc : (fresh cfg).Reachable c) :
    Inv cfg c.sh ∧ ∀ t, Local cfg t c.sh (c.pc t) :=
  outline_of rfl rfl (fun _ _ _ _ _ _ _ hs => hs) hc

/-- Without producers every empty receive is fresh. -/
theorem outline_no_producers (hone : cfg.senders = 0) (hc : (system cfg).Reachable c) :
    Inv cfg c.sh ∧ ∀ t, Local cfg t c.sh (c.pc t) := by
  refine outline_of rfl rfl (fun t s pc _ _ _ hl hs => ⟨hs, ?_⟩) hc
  unfold Fresh
  split
  · exact fun _ => hl.2.2.2 hone
  · trivial

/-- The round has drained the queue when its consumers have returned, and reports
no mismatch. -/
structure Drained (cfg : Config) (c : Conf Thread Shared Pc) : Prop where
  empty : (∀ j, j < cfg.consumers → (c.sh.result j).isSome = true) → c.sh.queue = []
  sum : (∀ j, j < cfg.consumers → (c.sh.result j).isSome = true) →
    ∑ j ∈ Finset.range cfg.consumers, (c.sh.result j).getD 0 = cfg.expected
  report : ∀ e, c.pc .main ≠ .report (.error e)

theorem sum_sent (hG : Inv cfg s) (hall : s.allReturned cfg = true) :
    ∑ i ∈ Finset.range cfg.senders, s.sent i = cfg.senders * cfg.itemsPerProducer := by
  calc ∑ i ∈ Finset.range cfg.senders, s.sent i
      = ∑ i ∈ Finset.range cfg.senders, cfg.itemsPerProducer := by
        apply Finset.sum_congr rfl
        intro i hi
        exact hG.complete i (allReturned_iff.mp hall i (Finset.mem_range.mp hi))
    _ = cfg.senders * cfg.itemsPerProducer := by simp

/-- One consumer that has returned settles the account of the round. -/
theorem sum_results (hG : Inv cfg s) (hpos : 1 ≤ cfg.consumers)
    (hsome : ∀ j, j < cfg.consumers → (s.result j).isSome = true) :
    s.queue = [] ∧ ∑ j ∈ Finset.range cfg.consumers, (s.result j).getD 0
      = cfg.prefilled.length + cfg.senders * cfg.itemsPerProducer := by
  obtain ⟨n, hn⟩ := Option.isSome_iff_exists.mp (hsome 0 hpos)
  obtain ⟨_, hall, hq⟩ := hG.result 0 n hn
  refine ⟨hq, ?_⟩
  have hconserved := hG.conserved
  rw [hq, List.length_nil, Nat.zero_add, sum_sent hG hall] at hconserved
  rw [← hconserved]
  apply Finset.sum_congr rfl
  intro j hj
  obtain ⟨m, hm⟩ := Option.isSome_iff_exists.mp (hsome j (Finset.mem_range.mp hj))
  rw [hm]
  exact (hG.result j m hm).1

theorem drained_of_outline (hpos : 1 ≤ cfg.consumers)
    (hexp : cfg.expected = cfg.prefilled.length + cfg.senders * cfg.itemsPerProducer)
    (hG : Inv cfg c.sh) (hl : ∀ t, Local cfg t c.sh (c.pc t)) : Drained cfg c := by
  have hsum := sum_results hG hpos
  refine ⟨fun h => (hsum h).1, fun h => ?_, fun e he => ?_⟩
  · rw [hexp, ← (hsum h).2]
  · have hmain : AtMain cfg c.sh (.report (.error e)) := he ▸ hl .main
    exact hmain.2 (hexp ▸ (hsum hmain.1).2)

/-- **The rounds drain the queue.**  A handoff round does so in every run in which a
consumer leaves only after it has seen the queue empty with all producers
returned; a dequeue round that finds the queue filled as expected does so in every
run. -/
theorem drained (cfg : Config) (hpos : 1 ≤ cfg.consumers) :
    (cfg.kind = .handoff → ∀ c, (fresh cfg).Reachable c → Drained cfg c) ∧
    (∀ queue, cfg.kind = .dequeue queue queue.length →
      ∀ c, (system cfg).Reachable c → Drained cfg c) := by
  constructor
  · intro hkind c hc
    obtain ⟨hG, hl⟩ := outline_fresh hc
    refine drained_of_outline hpos ?_ hG hl
    simp [Config.expected, Config.prefilled, Config.senders, hkind, Nat.mul_comm]
  · intro queue hkind c hc
    obtain ⟨hG, hl⟩ := outline_no_producers (by simp [Config.senders, hkind]) hc
    refine drained_of_outline hpos ?_ hG hl
    simp [Config.expected, Config.prefilled, Config.senders, hkind]

theorem batchPos {n : ℕ} (h : 1 ≤ n) (size : ℕ) (hs : some n = some size) : 1 ≤ size :=
  Option.some.inj hs ▸ h

/-- Two values in one batch of two: the second consumer leaves with none. -/
theorem drained_two_consumers :
    ∃ c, (fresh ⟨.handoff, 1, 2, 2, some 2, batchPos (Nat.le_succ 1), true⟩).Reachable c ∧
      c.pc .main = .report (.ok 2) ∧ c.sh.queue = [] := by
  obtain ⟨c, hruns, hpc, hresult⟩ : ∃ c, System.runs
      (System.guarded (step ⟨.handoff, 1, 2, 2, some 2, batchPos (Nat.le_succ 1), true⟩)
        fun t s pc _ _ => Fresh t s pc)
      ([Thread.producer 0, .producer 0, .producer 0, .main, .main, .main,
        .consumer 0, .consumer 0, .consumer 0, .consumer 0,
        .consumer 1, .consumer 1, .consumer 1, .main, .main, .main].map fun t => (t, ()))
      (fresh ⟨.handoff, 1, 2, 2, some 2, batchPos (Nat.le_succ 1), true⟩).start = some c ∧
      c.pc .main = .report (.ok 2) ∧ c.sh.result 0 = some 2 ∧ c.sh.result 1 = some 0 :=
    ⟨_, rfl, rfl, rfl, rfl⟩
  have hc := System.runs_guarded hruns
  have hdrained :=
    (drained ⟨.handoff, 1, 2, 2, some 2, batchPos (Nat.le_succ 1), true⟩ (by decide)).1 rfl c hc
  refine ⟨c, hc, hpc, hdrained.empty fun j hj => ?_⟩
  have hcases : j = 0 ∨ j = 1 := by
    have h2 : j < 2 := hj
    omega
  rcases hcases with rfl | rfl
  · simp [hresult.1]
  · simp [hresult.2]

/-- One producer, one consumer, one value: the consumer sees the queue empty, the
producer sends and returns, the flag is stored, and the consumer finds it set.  The
round reports a mismatch although the value is in the queue. -/
theorem left_behind :
    ∃ c, (system ⟨.handoff, 1, 1, 1, none, by simp, true⟩).Reachable c ∧
      c.sh.result 0 = some 0 ∧ c.sh.queue = [0] ∧
      c.pc .main = .report
        (.error "handoff integrity mismatch: expected 1 items, consumed 0") := by
  obtain ⟨c, hruns, h⟩ : ∃ c, System.runs
      (step ⟨.handoff, 1, 1, 1, none, by simp, true⟩)
      ([Thread.consumer 0, .consumer 0, .producer 0, .producer 0, .producer 0,
        .main, .main, .main, .consumer 0, .main, .main].map fun t => (t, ()))
      (system ⟨.handoff, 1, 1, 1, none, by simp, true⟩).start = some c ∧
      c.sh.result 0 = some 0 ∧ c.sh.queue = [0] ∧ c.pc .main = .report
        (.error "handoff integrity mismatch: expected 1 items, consumed 0") :=
    ⟨_, rfl, rfl, rfl, rfl⟩
  exact ⟨c, System.runs_reachable .start hruns, h⟩

end Bench.Handoff
