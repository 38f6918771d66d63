/-
# What a scan visits

A receiver reads the tail once and then visits the shards up to it, from its cursor to
the boundary and then from the head to the cursor.  Here one scan runs among steps of
an environment that may do anything to the queues and append shards at any time
(`Env`); what the scan does is shown by the run (`Event`).

`ScanAt` says what is known at each program counter: the shards visited so far are an
initial part of `order`, and the number of steps is bounded by the number of visits.
`Done` is what is known when the scan returns.  Without an environment the visits are
a `sweep` over the queues.
-/
import Ubq.Lubq.Order
import Ubq.Lubq.Closing
import Ubq.Sweep

namespace Lubq

open Function Interleave

/-! ## The order of a scan -/

/-- The positions from `start` to `b`, and then those before `start`. -/
def order (start b : ℕ) : List ℕ := List.range' start (b + 1 - start) ++ List.range start

/-- A scan starts at its cursor, unless this is absent or behind the boundary. -/
def startOf (cur : Option ℕ) (b : ℕ) : ℕ :=
  match cur with
  | some c => if c ≤ b then c else 0
  | none => 0

theorem startOf_le (cur : Option ℕ) (b : ℕ) : startOf cur b ≤ b := by
  unfold startOf
  split
  · split <;> omega
  · exact Nat.zero_le b

theorem mem_order {start b i : ℕ} (h : start ≤ b) : i ∈ order start b ↔ i ≤ b := by
  unfold order
  rw [List.mem_append, List.mem_range'_1, List.mem_range]
  omega

theorem nodup_order (start b : ℕ) : (order start b).Nodup := by
  unfold order
  rw [List.nodup_append]
  refine ⟨List.nodup_range', List.nodup_range, fun i hi j hj hij => ?_⟩
  rw [List.mem_range'_1] at hi
  rw [List.mem_range] at hj
  omega

theorem length_order {start b : ℕ} (h : start ≤ b) : (order start b).length = b + 1 := by
  unfold order
  rw [List.length_append, List.length_range', List.length_range]
  omega

/-- The positions before `c`, in the first or in the second loop. -/
def visited (start b : ℕ) (wrapped : Bool) (c : ℕ) : List ℕ :=
  match wrapped with
  | false => List.range' start (c - start)
  | true => List.range' start (b + 1 - start) ++ List.range c

theorem visited_succ {start b c : ℕ} {w : Bool} (h : w = false → start ≤ c) :
    visited start b w (c + 1) = visited start b w c ++ [c] := by
  cases w with
  | false =>
    have hle := h rfl
    unfold visited
    rw [show c + 1 - start = c - start + 1 by omega, List.range'_concat, Nat.one_mul,
      Nat.add_sub_cancel' hle]
  | true =>
    unfold visited
    rw [List.range_succ, List.append_assoc]

theorem visited_wrap (start b : ℕ) : visited start b false (b + 1) = visited start b true 0 := by
  unfold visited
  rw [List.range_zero, List.append_nil]

theorem range'_initial {start m n : ℕ} (h : m ≤ n) :
    List.range' start m <+: List.range' start n := by
  refine ⟨List.range' (start + m) (n - m), ?_⟩
  rw [List.range'_append_1, Nat.add_sub_cancel' h]

theorem visited_initial {start b c : ℕ} {w : Bool}
    (h : match w with
      | false => c ≤ b + 1
      | true => c ≤ start) : visited start b w c <+: order start b := by
  cases w with
  | false => exact (range'_initial (by omega)).trans (List.prefix_append _ _)
  | true =>
    unfold visited order
    rw [List.prefix_append_right_inj, List.range_eq_range', List.range_eq_range']
    exact range'_initial h

/-! ## Runs of a scan -/

/-- What a scan does. -/
inductive Event (T : Type*)
  /-- The tail has been read: the id of its shard. -/
  | boundary (id : ℕ)
  /-- A shard has been asked for values: its id and what it gave. -/
  | visit (id : ℕ) (values : List T)

section Code

variable {T : Type*}

/-- The visits among the events. -/
def visits (l : List (Event T)) : List (ℕ × List T) :=
  l.filterMap fun
    | .boundary _ => none
    | .visit id values => some (id, values)

/-- The shards visited. -/
def ids (l : List (Event T)) : List ℕ := (visits l).map Prod.fst

/-- The values taken. -/
def popped (l : List (Event T)) : List T := (visits l).flatMap Prod.snd

/-- The program counters of `scan_once` and `scan_batch_once`. -/
def Pc.scans : Pc T → Bool
  | .rTail .. | .rTake .. | .rHead .. | .rNext .. | .rPop .. | .rCursor .. | .rWrap ..
  | .rRotate .. | .rRotateHead .. => true
  | _ => false

/-- What the next step of a scan shows. -/
def Pc.shows (s : Shared T) : Pc T → List (Event T)
  | .rTail _ => (s.tail.map fun b => .boundary (s.heap b).id).toList
  | .rPop y _ shard _ => [.visit (s.heap shard).id
      (((s.heap shard).queue.take (y.recv.size - y.recv.received.length)).map Prod.snd)]
  | _ => []

/-- What other threads may do during a scan of receiver `r`: anything to the queues, and
shards may be appended. -/
structure Env (r : ℕ) (s : Shared T) (g : Ghost) (s' : Shared T) (g' : Ghost) : Prop where
  registry : Registry s' g'
  owned : s.owned <+: s'.owned
  nt : g.nt ≤ g'.nt
  cursor : s'.cursor r = s.cursor r

/-- Runs of a scan in the environment `E`: what they show and the number of own steps. -/
inductive Scans (cfg : Config) (t : Tid) (E : Shared T → Ghost → Shared T → Ghost → Prop)
    (s₀ : Shared T) (g₀ : Ghost) (pc₀ : Pc T) :
    List (Event T) → ℕ → Shared T → Ghost → Pc T → Prop
  | start : Scans cfg t E s₀ g₀ pc₀ [] 0 s₀ g₀ pc₀
  | own {l : List (Event T)} {n : ℕ} {s s' : Shared T} {g : Ghost} {pc pc' : Pc T} :
      Scans cfg t E s₀ g₀ pc₀ l n s g pc → pc.scans = true →
      step cfg t .run s pc = some (s', pc') →
      Scans cfg t E s₀ g₀ pc₀ (l ++ pc.shows s) (n + 1) s' g pc'
  | env {l : List (Event T)} {n : ℕ} {s s' : Shared T} {g g' : Ghost} {pc : Pc T} :
      Scans cfg t E s₀ g₀ pc₀ l n s g pc → pc.scans = true → E s g s' g' →
      Scans cfg t E s₀ g₀ pc₀ l n s' g' pc

/-- The place of a receiver's cursor in the list. -/
def CursorAt (s : Shared T) (r : ℕ) : Option ℕ → Prop
  | none => s.cursor r = none
  | some c => ∃ a, s.owned[c]? = some a ∧ s.cursor r = some a

end Code

variable {T : Type*} {cfg : Config} {t : Tid} {s s' : Shared T} {g g' : Ghost}
variable {pc : Pc T} {y : Scan T} {a : Addr} {c : ℕ} {r : Shared T × Pc T} {w : Bool}
  {next : Option Addr}

/-! ## What is known during a scan -/

section Outline

variable (cur : Option ℕ) (x : Recv T)

/-- The locals of a scan of the call `x` that has shown `l`. -/
structure Seen (l : List (Event T)) (s : Shared T) (g : Ghost) (y : Scan T) : Prop where
  first : l.head? = some (.boundary y.boundaryId)
  recv : y.recv = { x with received := popped l }
  boundary : y.boundaryId < g.nt
  start : y.startId = startOf cur y.boundaryId
  place : s.owned[y.startId]? = some y.start

/-- The scan stands at `shard`, position `c`. -/
structure Stand (l : List (Event T)) (s : Shared T) (g : Ghost) (y : Scan T) (wrapped : Bool)
    (shard : Addr) (c : ℕ) : Prop where
  seen : Seen cur x l s g y
  here : s.owned[c]? = some shard
  bounds : match wrapped with
    | false => y.startId ≤ c ∧ c ≤ y.boundaryId
    | true => c < y.startId

/-- What is known at each program counter after `n` steps that have shown `l`. -/
def ScanAt (l : List (Event T)) (n : ℕ) (s : Shared T) (g : Ghost) : Pc T → Prop
  | .rTail x' => x' = x ∧ l = [] ∧ n = 0 ∧ CursorAt s x.r cur
  | .rTake x' b => x' = x ∧ l = [.boundary b] ∧ n = 1 ∧ b < g.nt ∧ CursorAt s x.r cur
  | .rHead x' b => x' = x ∧ l = [.boundary b] ∧ n = 2 ∧ b < g.nt ∧ startOf cur b = 0
  | .rNext y w shard => ∃ c, Stand cur x l s g y w shard c ∧
      ids l = visited y.startId y.boundaryId w c ∧ (popped l).length < x.size ∧
      n ≤ 3 + 3 * (ids l).length + w.toNat
  | .rPop y w shard next => ∃ c, Stand cur x l s g y w shard c ∧ Linked s y c next ∧
      ids l = visited y.startId y.boundaryId w c ∧ (popped l).length < x.size ∧
      n ≤ 4 + 3 * (ids l).length + w.toNat
  | .rCursor y w shard next => ∃ c, Stand cur x l s g y w shard c ∧ Linked s y c next ∧
      ids l = visited y.startId y.boundaryId w (c + 1) ∧ (popped l).length ≤ x.size ∧
      popped l ≠ [] ∧ n ≤ 2 + 3 * (ids l).length + w.toNat
  | .rWrap y => Seen cur x l s g y ∧ ids l = visited y.startId y.boundaryId true 0 ∧
      (popped l).length < x.size ∧ n ≤ 3 + 3 * (ids l).length
  | .rRotate y => Seen cur x l s g y ∧ ids l = order y.startId y.boundaryId ∧ popped l = [] ∧
      n ≤ 4 + 3 * (ids l).length
  | .rRotateHead y => Seen cur x l s g y ∧ ids l = order y.startId y.boundaryId ∧ popped l = [] ∧
      n ≤ 5 + 3 * (ids l).length
  | _ => False

/-- What is known when the scan has returned to `try_recv`. -/
structure Done (t : Tid) (l : List (Event T)) (n : ℕ) (s : Shared T) (pc : Pc T) (b : ℕ) :
    Prop where
  returned : ∃ s₁, scanned s₁ t { x with received := popped l } = (s, pc)
  first : l.head? = some (.boundary b)
  initial : ids l <+: order (startOf cur b) b
  full : (popped l).length = x.size ∨ ids l = order (startOf cur b) b
  steps : n ≤ 3 * (b + 1) + 6

end Outline

variable {cur : Option ℕ} {x : Recv T} {l : List (Event T)} {n : ℕ} {k : ℕ}

theorem ScanAt.scans (h : ScanAt cur x l n s g pc) : pc.scans = true := by
  cases pc with
  | rTail | rTake | rHead | rNext | rPop | rCursor | rWrap | rRotate | rRotateHead => rfl
  | _ => exact h.elim

theorem scanned_scans (s : Shared T) (t : Tid) (x : Recv T) : (scanned s t x).2.scans = false := by
  unfold scanned
  split <;> rfl

theorem Done.scans {b : ℕ} (h : Done cur x t l n s pc b) : pc.scans = false := by
  obtain ⟨s₁, hs⟩ := h.returned
  have := scanned_scans s₁ t { x with received := popped l }
  rwa [hs] at this

/-! ### The environment -/

theorem Seen.env (h : Seen cur x l s g y) (hE : Env x.r s g s' g') : Seen cur x l s' g' y :=
  ⟨h.first, h.recv, Nat.lt_of_lt_of_le h.boundary hE.nt, h.start,
    getElem?_of_prefix hE.owned h.place⟩

theorem Stand.env (h : Stand cur x l s g y w a c)
    (hE : Env x.r s g s' g') : Stand cur x l s' g' y w a c :=
  ⟨h.seen.env hE, getElem?_of_prefix hE.owned h.here, h.bounds⟩

theorem Linked.env {r : ℕ} (h : Linked s y c next)
    (hE : Env r s g s' g') : Linked s' y c next := by
  rcases h with ⟨b, hb, hc⟩ | h
  · exact .inl ⟨b, hb, getElem?_of_prefix hE.owned hc⟩
  · exact .inr h

theorem CursorAt.env {r : ℕ} (h : CursorAt s r cur) (hE : Env r s g s' g') : CursorAt s' r cur := by
  cases cur with
  | none => exact hE.cursor.trans h
  | some c =>
    obtain ⟨a, ha, hc⟩ := h
    exact ⟨a, getElem?_of_prefix hE.owned ha, hE.cursor.trans hc⟩

/-- The environment leaves what a scan knows alone. -/
theorem ScanAt.env (h : ScanAt cur x l n s g pc) (hE : Env x.r s g s' g') :
    ScanAt cur x l n s' g' pc := by
  cases pc with
  | rTail x' =>
    obtain ⟨hx, hl, hn, hc⟩ := h
    exact ⟨hx, hl, hn, hc.env hE⟩
  | rTake x' b =>
    obtain ⟨hx, hl, hn, hb, hc⟩ := h
    exact ⟨hx, hl, hn, Nat.lt_of_lt_of_le hb hE.nt, hc.env hE⟩
  | rHead x' b =>
    obtain ⟨hx, hl, hn, hb, hc⟩ := h
    exact ⟨hx, hl, hn, Nat.lt_of_lt_of_le hb hE.nt, hc⟩
  | rNext y w a =>
    obtain ⟨c, hst, hrest⟩ := h
    exact ⟨c, hst.env hE, hrest⟩
  | rPop y w a next | rCursor y w a next =>
    obtain ⟨c, hst, hlk, hrest⟩ := h
    exact ⟨c, hst.env hE, hlk.env hE, hrest⟩
  | rWrap y | rRotate y | rRotateHead y =>
    obtain ⟨hy, hrest⟩ := h
    exact ⟨hy.env hE, hrest⟩
  | _ => exact h.elim

/-! ### The steps -/

theorem Same.registry (h : Same s s') (hreg : Registry s g) : Registry s' g := by
  cases s
  cases s'
  obtain ⟨rfl, rfl, rfl, rfl, rfl, rfl⟩ := h
  exact { hreg with }

theorem Registry.setCursor (h : Registry s g) (r : ℕ) (p : Option Addr) :
    Registry (s.setCursor r p) g :=
  (⟨rfl, rfl, rfl, rfl, rfl, rfl⟩ : Same s (s.setCursor r p)).registry h

theorem Registry.pop (h : Registry s g) (r : ℕ) (a : Addr) (k : ℕ) : Registry (s.pop r a k) g :=
  (⟨rfl, rfl, rfl, rfl, rfl, rfl⟩ : Same (s.modShard a (·.pop k)) (s.pop r a k)).registry
    (h.modShard rfl rfl)

/-- A scan knows of the list of shards only where they are. -/
theorem Stand.congr (h : Stand cur x l s g y w a c)
    (howned : s'.owned = s.owned) : Stand cur x l s' g y w a c :=
  ⟨{ h.seen with place := howned ▸ h.seen.place },
    howned ▸ h.here, h.bounds⟩

/-- After a step the scan goes on, or it has returned. -/
def Goes (cur : Option ℕ) (x : Recv T) (t : Tid) (l : List (Event T)) (n : ℕ) (g : Ghost)
    (r : Shared T × Pc T) : Prop :=
  ScanAt cur x l n r.1 g r.2 ∨ ∃ b, Done cur x t l n r.1 r.2 b

theorem Seen.length_le (h : Seen cur x l s g y)
    (hids : ids l <+: order y.startId y.boundaryId) : (ids l).length ≤ y.boundaryId + 1 := by
  have hle := startOf_le cur y.boundaryId
  rw [← h.start] at hle
  rw [← length_order hle]
  exact hids.length_le

theorem Seen.done (h : Seen cur x l s g y)
    (hids : ids l <+: order y.startId y.boundaryId)
    (hfull : (popped l).length = x.size ∨ ids l = order y.startId y.boundaryId)
    (hn : n ≤ 6 + 3 * (ids l).length) (s₁ : Shared T) :
    Goes cur x t l n g (scanned s₁ t y.recv) := by
  have hlen := h.length_le hids
  refine .inr ⟨y.boundaryId, ⟨s₁, ?_⟩, h.first, ?_, ?_, by omega⟩
  · rw [h.recv]
  · rwa [← h.start]
  · rwa [← h.start]

theorem Seen.ends (h : Seen cur x l s g y) (hids : ids l = order y.startId y.boundaryId)
    (hn : n ≤ 4 + 3 * (ids l).length) : Goes cur x t l n g (scanEnd s t y) := by
  unfold scanEnd
  split
  · rename_i hnil
    rw [h.recv] at hnil
    exact .inl ⟨h, hids, hnil, hn⟩
  · exact h.done (hids ▸ List.prefix_refl _) (.inr hids) (by omega) s

/-- The second loop at position `c`. -/
theorem Seen.wrapped (h : Seen cur x l s g y) (hreg : Registry s g)
    (ha : s.owned[c]? = some a) (hc : c ≤ y.startId)
    (hids : ids l = visited y.startId y.boundaryId true c) (hlt : (popped l).length < x.size)
    (hn : n ≤ 4 + 3 * (ids l).length) : Goes cur x t l n g (scanWrapped s t y (some a)) := by
  have hid := hreg.ids c a ha
  have hle := startOf_le cur y.boundaryId
  rw [← h.start] at hle
  simp only [scanWrapped, hid]
  split
  · obtain rfl : c = y.startId := by omega
    exact h.ends hids hn
  · refine .inl ⟨c, ⟨h, ha, ?_⟩, hids, hlt, ?_⟩
    · omega
    · show n ≤ 3 + 3 * (ids l).length + 1
      omega

theorem within_of_le (hreg : Registry s g) {c b : ℕ} (ha : s.owned[c]? = some a)
    (hc : c ≤ b) : s.within b (some a) = some a := by
  have hid := hreg.ids c a ha
  simp [Shared.within, hid, hc]

/-- On from position `c`, which has been visited. -/
theorem Stand.goes
    (h : Stand cur x l s g y w a c) (hreg : Registry s g) (hnext : Linked s y c next)
    (hids : ids l = visited y.startId y.boundaryId w (c + 1)) (hlt : (popped l).length < x.size)
    (hn : n ≤ 3 + 3 * (ids l).length + w.toNat) : Goes cur x t l n g (scanNext s t y w a next) := by
  have hid := hreg.ids c a h.here
  have hle := startOf_le cur y.boundaryId
  rw [← h.seen.start] at hle
  cases w with
  | false =>
    obtain ⟨hge, hcb⟩ : y.startId ≤ c ∧ c ≤ y.boundaryId := h.bounds
    simp only [scanNext, hid]
    split
    · rename_i heq
      rw [heq, visited_wrap] at hids
      exact .inl ⟨h.seen, hids, hlt, hn⟩
    · rcases hnext with ⟨b, rfl, hb⟩ | ⟨_, hbad⟩
      · rw [within_of_le hreg hb (by omega)]
        simp only [scanFrom, hreg.ids _ b hb]
        rw [if_neg (by omega)]
        refine .inl ⟨c + 1, ⟨h.seen, hb, ?_⟩, hids, hlt, hn⟩
        omega
      · omega
  | true =>
    have hlts : c < y.startId := h.bounds
    rcases hnext with ⟨b, rfl, hb⟩ | ⟨_, hbad⟩
    · simp only [scanNext]
      rw [within_of_le hreg hb (by omega)]
      rw [Bool.toNat_true] at hn
      exact h.seen.wrapped hreg hb hlts hids hlt (by omega)
    · omega

/-- A scan begins at position `c`. -/
theorem scanFrom_goes (hreg : Registry s g) (hnil : x.received = []) (hsize : 0 < x.size) {b c : ℕ}
    (ha : s.owned[c]? = some a) (hc : startOf cur b = c) (hb : b < g.nt) (hn : n ≤ 3) :
    ScanAt cur x [.boundary b] n s g (scanFrom s ⟨x, b, a, (s.heap a).id⟩ (some a)) := by
  have hid := hreg.ids c a ha
  have hle := startOf_le cur b
  rw [hc] at hle
  simp only [scanFrom, hid]
  rw [if_neg (by omega)]
  refine ⟨c, ⟨⟨rfl, ?_, hb, hc.symm, ha⟩, ha, Nat.le_refl c, hle⟩, ?_, hsize, ?_⟩
  · show x = { x with received := [] }
    rw [← hnil]
  · show [] = List.range' c (c - c)
    rw [Nat.sub_self]
    rfl
  · exact hn

/-- The shards up to where a scan stands are a first part of its order. -/
theorem Stand.initial (h : Stand cur x l s g y w a c) (hk : k ≤ c + 1)
    (hids : ids l = visited y.startId y.boundaryId w k) :
    ids l <+: order y.startId y.boundaryId := by
  rw [hids]
  apply visited_initial
  cases w with
  | false => exact hk.trans (Nat.succ_le_succ h.bounds.2)
  | true => exact hk.trans h.bounds

theorem ids_append (l m : List (Event T)) : ids (l ++ m) = ids l ++ ids m := by
  unfold ids visits
  rw [List.filterMap_append, List.map_append]

theorem popped_append (l m : List (Event T)) : popped (l ++ m) = popped l ++ popped m := by
  unfold popped visits
  rw [List.filterMap_append, List.flatMap_append]

theorem head?_append_of_some {e : Event T} {m : List (Event T)} (h : l.head? = some e) :
    (l ++ m).head? = some e := by
  rw [List.head?_append, h]
  rfl

/-- A visit at position `c` that gave `vs`. -/
theorem Stand.visit (h : Stand cur x l s g y w a c)
    (hids : ids l = visited y.startId y.boundaryId w c) (vs : List T) :
    Stand cur x (l ++ [.visit c vs]) s g
      { y with recv := { y.recv with received := y.recv.received ++ vs } } w a c ∧
    ids (l ++ [.visit c vs]) = visited y.startId y.boundaryId w (c + 1) ∧
    popped (l ++ [.visit c vs]) = popped l ++ vs := by
  have hpopped : popped (l ++ [.visit c vs]) = popped l ++ vs := by
    rw [popped_append]
    simp [popped, visits]
  refine ⟨⟨{ h.seen with first := head?_append_of_some h.seen.first, recv := ?_ },
    h.here, h.bounds⟩, ?_, hpopped⟩
  · rw [hpopped, h.seen.recv]
  · rw [visited_succ, ids_append, hids]
    · rfl
    · intro hw
      subst hw
      exact h.bounds.1

/-- **One step of a scan.** -/
theorem scan_step (hreg : Registry s g) (hnil : x.received = []) (hsize : 0 < x.size)
    (h : ScanAt cur x l n s g pc) (hs : step cfg t .run s pc = some r) :
    Registry r.1 g ∧ Goes cur x t (l ++ pc.shows s) (n + 1) g r := by
  apply Post.of hs
  cases pc with
  | rTail x' =>
    obtain ⟨rfl, rfl, rfl, hc⟩ := h
    obtain ⟨a, ha, hid⟩ := hreg.tail_some
    simp only [step, ha]
    have := hreg.nt_pos
    refine ⟨hreg, .inl ⟨rfl, ?_, rfl, by omega, hc⟩⟩
    simp [Pc.shows, ha]
  | rTake x' b =>
    obtain ⟨rfl, rfl, rfl, hb, hc⟩ := h
    have hset := hreg.setCursor x'.r none
    simp only [step]
    cases cur with
    | none =>
      rw [show s.cursor x'.r = none from hc]
      exact ⟨hset, .inl ⟨rfl, rfl, rfl, hb, rfl⟩⟩
    | some c =>
      obtain ⟨a, ha, hcur⟩ := hc
      have hid := hreg.ids c a ha
      rw [hcur]
      by_cases hcb : c ≤ b
      · rw [within_of_le hreg ha hcb]
        refine ⟨hset, .inl ?_⟩
        exact scanFrom_goes hset hnil hsize ha (if_pos hcb) hb (Nat.le_succ _)
      · have hnone : s.within b (some a) = none := by
          simp [Shared.within, hid, Nat.lt_of_not_le hcb]
        rw [hnone]
        exact ⟨hset, .inl ⟨rfl, rfl, rfl, hb, if_neg hcb⟩⟩
  | rHead x' b =>
    obtain ⟨rfl, rfl, rfl, hb, hc⟩ := h
    obtain ⟨a, ha, hget⟩ := hreg.head_some
    simp only [step, ha]
    exact ⟨hreg, .inl (scanFrom_goes hreg hnil hsize hget hc hb (Nat.le_refl _))⟩
  | rNext y w a =>
    obtain ⟨c, hst, hids, hlt, hn⟩ := h
    simp only [Pc.shows, List.append_nil]
    exact ⟨hreg, .inl ⟨c, hst, hreg.linked hst.here hst.seen.boundary, hids, hlt, by omega⟩⟩
  | rPop y w a next =>
    obtain ⟨c, hst, hnext, hids, hlt, hn⟩ := h
    have hid := hreg.ids c a hst.here
    have hrecv := hst.seen.recv
    simp only [step]
    simp only [Pc.shows, hid]
    have hvisit := hst.visit hids
      (((s.heap a).queue.take (y.recv.size - y.recv.received.length)).map Prod.snd)
    obtain ⟨hst', hids', hpop'⟩ := hvisit
    split
    · rename_i hnone
      refine ⟨(scanNext_same s t y w a next).registry hreg, ?_⟩
      rw [hnone] at hst' hids' hpop' ⊢
      simp only [List.map_nil, List.append_nil] at hst' hpop'
      refine hst'.goes hreg hnext hids' (hpop' ▸ hlt) ?_
      rw [ids_append, List.length_append]
      show n + 1 ≤ 3 + 3 * ((ids l).length + 1) + w.toNat
      omega
    · rename_i e es hsome
      have hlen : (e :: es).length ≤ y.recv.size - y.recv.received.length := by
        rw [← hsome]
        exact List.length_take_le _ _
      rw [hsome] at hst' hids' hpop' ⊢
      refine ⟨hreg.pop _ _ _, .inl ⟨c, hst'.congr rfl, hnext, hids', ?_, ?_, ?_⟩⟩
      · rw [hpop', List.length_append, List.length_map]
        have hsz : y.recv.size - y.recv.received.length = x.size - (popped l).length := by
          rw [hrecv]
          exact rfl
        omega
      · rw [hpop']
        simp
      · rw [ids_append, List.length_append]
        show n + 1 ≤ 2 + 3 * ((ids l).length + 1) + w.toNat
        omega
  | rCursor y w a next =>
    obtain ⟨c, hst, hnext, hids, hle, hne, hn⟩ := h
    have hset := hreg.setCursor y.recv.r (next <|> s.head)
    have hst' : Stand cur x l (s.setCursor y.recv.r (next <|> s.head)) g y w a c := hst.congr rfl
    have hrec : y.recv.received.length = (popped l).length ∧ y.recv.size = x.size := by
      rw [hst.seen.recv]
      exact ⟨rfl, rfl⟩
    have hstart := startOf_le cur y.boundaryId
    rw [← hst.seen.start] at hstart
    have hw := w.toNat_le
    simp only [Pc.shows, List.append_nil]
    simp only [step]
    split
    · refine ⟨(scanned_same _ t y.recv).registry hset,
        hst'.seen.done ?_ (.inl (by omega)) (by omega) _⟩
      exact hst.initial le_rfl hids
    · exact ⟨(scanNext_same _ t y w a next).registry hset,
        hst'.goes hset hnext hids (by omega) (by omega)⟩
  | rWrap y =>
    obtain ⟨hy, hids, hlt, hn⟩ := h
    obtain ⟨a, ha, hget⟩ := hreg.head_some
    simp only [step, ha]
    simp only [Pc.shows, List.append_nil]
    exact ⟨(scanWrapped_same s t y (some a)).registry hreg,
      hy.wrapped hreg hget (Nat.zero_le _) hids hlt (by omega)⟩
  | rRotate y =>
    obtain ⟨hy, hids, hpop, hn⟩ := h
    simp only [Pc.shows, List.append_nil]
    simp only [step]
    split
    · exact ⟨(scanned_same _ t y.recv).registry (hreg.setCursor _ _),
        hy.done (hids ▸ List.prefix_refl _) (.inr hids) (by omega) _⟩
    · exact ⟨hreg, .inl ⟨hy, hids, hpop, by omega⟩⟩
  | rRotateHead y =>
    obtain ⟨hy, hids, hpop, hn⟩ := h
    simp only [Pc.shows, List.append_nil]
    exact ⟨(scanned_same _ t y.recv).registry (hreg.setCursor _ _),
      hy.done (hids ▸ List.prefix_refl _) (.inr hids) (by omega) _⟩
  | _ => exact h.elim

/-- A scan never waits. -/
theorem scan_enabled (cfg : Config) (t : Tid) (hpc : pc.scans = true) (s : Shared T) :
    ∃ r, step cfg t .run s pc = some r := by
  cases pc with
  | rTail | rTake | rHead | rPop | rCursor | rRotate =>
    simp only [step]
    split <;> exact ⟨_, rfl⟩
  | rNext | rWrap | rRotateHead => exact ⟨_, rfl⟩
  | _ => simp [Pc.scans] at hpc

/-- **Every scan**, in the environment. -/
theorem scan_run (hreg : Registry s g) (hcur : CursorAt s x.r cur) (hnil : x.received = [])
    (hsize : 0 < x.size) (h : Scans cfg t (Env x.r) s g (.rTail x) l n s' g' pc) :
    Registry s' g' ∧ Goes cur x t l n g' (s', pc) := by
  induction h with
  | start => exact ⟨hreg, .inl ⟨rfl, rfl, rfl, hcur⟩⟩
  | own _ hpc hs ih =>
    obtain ⟨hreg', hat | ⟨b, hdone⟩⟩ := ih
    · exact scan_step hreg' hnil hsize hat hs
    · simp [hdone.scans] at hpc
  | env _ hpc hE ih =>
    obtain ⟨hreg', hat | ⟨b, hdone⟩⟩ := ih
    · exact ⟨hE.registry, .inl (hat.env hE)⟩
    · simp [hdone.scans] at hpc

/-- What has been shown is bounded by the tail that was read. -/
theorem ScanAt.covers (h : ScanAt cur x l n s g pc) :
    (pc = .rTail x ∧ l = [] ∧ n = 0) ∨ ∃ b, b < g.nt ∧ l.head? = some (.boundary b) ∧
      ids l <+: order (startOf cur b) b ∧ n ≤ 3 * (b + 1) + 5 := by
  have hseen : ∀ {y : Scan T} {m k : ℕ}, Seen cur x l s g y → m ≤ 5 → k ≤ m + 3 * (ids l).length →
      ids l <+: order y.startId y.boundaryId → ∃ b, b < g.nt ∧ l.head? = some (.boundary b) ∧
      ids l <+: order (startOf cur b) b ∧ k ≤ 3 * (b + 1) + 5 := by
    intro y m k hy hm hk hids
    have hlen := hy.length_le hids
    exact ⟨y.boundaryId, hy.boundary, hy.first, hy.start ▸ hids, by omega⟩
  cases pc with
  | rTail x' =>
    obtain ⟨rfl, hl, hn, _⟩ := h
    exact .inl ⟨rfl, hl, hn⟩
  | rTake x' b | rHead x' b =>
    obtain ⟨rfl, rfl, rfl, hb, _⟩ := h
    exact .inr ⟨b, hb, rfl, List.nil_prefix, by omega⟩
  | rNext y w a =>
    obtain ⟨c, hst, hids, _, hn⟩ := h
    have hw := w.toNat_le
    exact .inr (hseen (m := 4) hst.seen (by omega) (by omega) (hst.initial (Nat.le_succ c) hids))
  | rPop y w a next =>
    obtain ⟨c, hst, _, hids, _, hn⟩ := h
    have hw := w.toNat_le
    exact .inr (hseen (m := 5) hst.seen (by omega) (by omega) (hst.initial (Nat.le_succ c) hids))
  | rCursor y w a next =>
    obtain ⟨c, hst, _, hids, _, _, hn⟩ := h
    have hw := w.toNat_le
    exact .inr (hseen (m := 3) hst.seen (by omega) (by omega) (hst.initial le_rfl hids))
  | rWrap y =>
    obtain ⟨hy, hids, _, hn⟩ := h
    refine .inr (hseen (m := 3) hy (by omega) (by omega) ?_)
    rw [hids]
    exact visited_initial (Nat.zero_le _)
  | rRotate y =>
    obtain ⟨hy, hids, _, hn⟩ := h
    exact .inr (hseen (m := 4) hy (by omega) (by omega) (hids ▸ List.prefix_refl _))
  | rRotateHead y =>
    obtain ⟨hy, hids, _, hn⟩ := h
    exact .inr (hseen (m := 5) hy (by omega) (by omega) (hids ▸ List.prefix_refl _))
  | _ => exact h.elim

/-! ## A scan alone -/

/-- The queue of the shard at position `i`. -/
def Shared.queueAt (s : Shared T) (i : ℕ) : List (ℕ × T) :=
  match s.owned[i]? with
  | some a => s.queue a
  | none => []

theorem queueAt_of_get {i : ℕ} (h : s.owned[i]? = some a) : s.queueAt i = s.queue a := by
  unfold Shared.queueAt
  rw [h]

theorem Same.queueAt (h : Same s s') : s'.queueAt = s.queueAt := by
  funext i
  unfold Shared.queueAt Shared.queue
  rw [h.heap, h.owned]

theorem queueAt_pop (hreg : Registry s g) (ha : s.owned[c]? = some a) (r k : ℕ) :
    (s.pop r a k).queueAt = update s.queueAt c ((s.queueAt c).drop k) := by
  funext i
  rw [queueAt_of_get ha]
  by_cases hic : i = c
  · subst hic
    rw [update_self, queueAt_of_get (show (s.pop r a k).owned[i]? = some a from ha)]
    exact pop_queue_self s r a k
  · rw [update_of_ne hic]
    unfold Shared.queueAt
    show (match s.owned[i]? with
      | some b => (s.pop r a k).queue b
      | none => []) = _
    cases hi : s.owned[i]? with
    | none => rfl
    | some b =>
      have hba : b ≠ a := by
        rintro rfl
        exact hic ((hreg.ids i b hi).symm.trans (hreg.ids c b ha))
      exact pop_queue_ne s r hba k

/-- The visits so far are a sweep over the queues, up to the tail of the list. -/
structure Swept (x : Recv T) (q : ℕ → List (ℕ × T)) (l : List (Event T)) (s : Shared T)
    (g : Ghost) : Prop where
  swept : ∃ taken, sweep x.size q (ids l) = (taken, s.queueAt) ∧ popped l = taken.map Prod.snd
  bound : ∀ b, l.head? = some (.boundary b) → b + 1 = g.nt

/-- Only `pop` changes the queues. -/
theorem scan_same (hpc : pc.scans = true) (hne : ∀ y w a next, pc ≠ .rPop y w a next)
    (hs : step cfg t .run s pc = some r) : Same s r.1 := by
  apply Post.of hs
  have hrefl : ∀ {k : ℕ} {p : Option Addr} {s₁ : Shared T}, Same (s.setCursor k p) s₁ → Same s s₁ :=
    fun h => { h with }
  cases pc with
  | rTail x | rHead x b =>
    simp only [step]
    split
    · exact ⟨rfl, rfl, rfl, rfl, rfl, rfl⟩
    · exact scanned_same s t x
  | rTake x b =>
    simp only [step]
    split <;> exact ⟨rfl, rfl, rfl, rfl, rfl, rfl⟩
  | rNext y w a => exact ⟨rfl, rfl, rfl, rfl, rfl, rfl⟩
  | rPop y w a next => exact absurd rfl (hne y w a next)
  | rCursor y w a next =>
    simp only [step]
    split
    · exact hrefl (scanned_same _ t y.recv)
    · exact hrefl (scanNext_same _ t y w a next)
  | rWrap y => exact scanWrapped_same s t y s.head
  | rRotate y =>
    simp only [step]
    split
    · exact hrefl (scanned_same _ t y.recv)
    · exact ⟨rfl, rfl, rfl, rfl, rfl, rfl⟩
  | rRotateHead y => exact hrefl (scanned_same _ t y.recv)
  | _ => simp [Pc.scans] at hpc

/-- The queues after a visit. -/
theorem queueAt_visit (hreg : Registry s g)
    (ha : s.owned[c]? = some a)
    (hlt : y.recv.received.length < y.recv.size)
    (hs : step cfg t .run s (.rPop y w a next) = some r) :
    r.1.queueAt = update s.queueAt c
      ((s.queueAt c).drop (y.recv.size - y.recv.received.length)) := by
  apply Post.of hs
  simp only [step]
  split
  · rename_i hnone
    refine (scanNext_same s t y w a next).queueAt.trans ?_
    have hempty : s.queueAt c = [] := by
      rw [queueAt_of_get ha]
      rcases List.take_eq_nil_iff.mp hnone with hz | hq
      · omega
      · exact hq
    rw [hempty, List.drop_nil, ← hempty, update_eq_self]
  · exact queueAt_pop hreg ha _ _

/-- The first event stays the boundary, and it is the last shard if the list does not grow. -/
theorem bound_step (hreg : Registry s g) (hat : ScanAt cur x l n s g pc)
    (h : ∀ b, l.head? = some (.boundary b) → b + 1 = g.nt) :
    ∀ b, (l ++ pc.shows s).head? = some (.boundary b) → b + 1 = g.nt := by
  intro b hb
  rcases hat.covers with ⟨rfl, rfl, _⟩ | ⟨b', _, hfirst, _⟩
  · obtain ⟨a, ha, hid⟩ := hreg.tail_some
    simp only [Pc.shows, ha, Option.map_some, Option.toList_some, List.nil_append,
      List.head?_cons, Option.some.injEq, Event.boundary.injEq] at hb
    have := hreg.nt_pos
    omega
  · rw [head?_append_of_some hfirst] at hb
    exact h b (hfirst.trans hb)

/-- Only `pop` shows a visit. -/
theorem shows_quiet (hne : ∀ y w a next, pc ≠ .rPop y w a next) (s : Shared T) :
    ids (pc.shows s) = [] ∧ popped (pc.shows s) = [] := by
  cases pc with
  | rTail x' => cases htail : s.tail <;> simp [Pc.shows, htail, ids, popped, visits]
  | rPop y w a next => exact absurd rfl (hne y w a next)
  | _ => exact ⟨rfl, rfl⟩

theorem swept_step {q : ℕ → List (ℕ × T)} (hreg : Registry s g)
    (hat : ScanAt cur x l n s g pc) (h : Swept x q l s g)
    (hs : step cfg t .run s pc = some r) : Swept x q (l ++ pc.shows s) r.1 g := by
  obtain ⟨⟨taken, hsweep, hpop⟩, hbound⟩ := h
  have hbound' := bound_step hreg hat hbound
  by_cases hne : ∀ y w a next, pc ≠ .rPop y w a next
  · have hquiet := shows_quiet hne s
    refine ⟨⟨taken, ?_, ?_⟩, hbound'⟩
    · rw [ids_append, hquiet.1, List.append_nil, hsweep, (scan_same hat.scans hne hs).queueAt]
    · rw [popped_append, hquiet.2, List.append_nil, hpop]
  · push Not at hne
    obtain ⟨y, w, a, next, rfl⟩ := hne
    obtain ⟨c, hst, _, hids, hlt, _⟩ := hat
    have hid := hreg.ids c a hst.here
    have hlen : (popped l).length = taken.length := by rw [hpop, List.length_map]
    have hsz : y.recv.size - y.recv.received.length = x.size - taken.length ∧
        y.recv.received.length < y.recv.size := by
      rw [hst.seen.recv]
      exact ⟨congrArg (x.size - ·) hlen, hlt⟩
    refine ⟨⟨taken ++ (s.queueAt c).take (x.size - taken.length), ?_, ?_⟩, hbound'⟩
    · rw [queueAt_visit hreg hst.here hsz.2 hs, ids_append]
      simp only [Pc.shows, hid]
      rw [show ids [Event.visit c _] = [c] from rfl, sweep_snoc, hsweep, hsz.1]
      rfl
    · rw [popped_append, hpop, List.map_append]
      simp only [Pc.shows, hid, hsz.1]
      rw [queueAt_of_get hst.here]
      simp [popped, visits, Shared.queue]

/-- No environment. -/
def Alone (_ : Shared T) (_ : Ghost) (_ : Shared T) (_ : Ghost) : Prop := False

/-- **Every scan alone** is a sweep. -/
theorem scan_alone (hreg : Registry s g) (hcur : CursorAt s x.r cur) (hnil : x.received = [])
    (hsize : 0 < x.size) (h : Scans cfg t Alone s g (.rTail x) l n s' g' pc) :
    g' = g ∧ Registry s' g ∧ Goes cur x t l n g (s', pc) ∧ Swept x s.queueAt l s' g := by
  induction h with
  | start => exact ⟨rfl, hreg, .inl ⟨rfl, rfl, rfl, hcur⟩, ⟨[], rfl, rfl⟩, by simp⟩
  | own _ hpc hs ih =>
    obtain ⟨rfl, hreg', hat | ⟨b, hdone⟩, hswept⟩ := ih
    · obtain ⟨hreg'', hgoes⟩ := scan_step hreg' hnil hsize hat hs
      exact ⟨rfl, hreg'', hgoes, swept_step hreg' hat hswept hs⟩
    · simp [hdone.scans] at hpc
  | env _ _ hE _ => exact hE.elim

/-- A scan alone ends. -/
theorem scan_ends (hreg : Registry s g) (hcur : CursorAt s x.r cur) (hnil : x.received = [])
    (hsize : 0 < x.size) (h : Scans cfg t Alone s g (.rTail x) l n s' g pc) :
    ∃ l' n' s'' pc', Scans cfg t Alone s g (.rTail x) l' n' s'' g pc' ∧ pc'.scans = false := by
  induction hk : 3 * g.nt + 6 - n generalizing l n s' pc with
  | zero =>
    obtain ⟨_, _, hat | ⟨b, hdone⟩, _⟩ := scan_alone hreg hcur hnil hsize h
    · rcases hat.covers with ⟨_, _, rfl⟩ | ⟨b, hb, _, _, hn⟩ <;> omega
    · exact ⟨l, n, s', pc, h, hdone.scans⟩
  | succ k ih =>
    obtain ⟨_, _, hat | ⟨b, hdone⟩, _⟩ := scan_alone hreg hcur hnil hsize h
    · obtain ⟨r, hr⟩ := scan_enabled cfg t hat.scans s'
      exact ih (.own h hat.scans hr) (by omega)
    · exact ⟨l, n, s', pc, h, hdone.scans⟩

/-! ## The other threads of the channel

In a run of the channel the steps of the other threads are steps of the environment. -/

/-- What a step of thread `u` may do to receivers. -/
structure Tended (u : Tid) (s s' : Shared T) : Prop where
  receivers : s.receivers ≤ s'.receivers
  user : ∀ k, s'.user k = s.user k ∨ s'.user k = none ∨ k < s.receivers
  cursor : ∀ k, s.user k ≠ some u → k < s.receivers → s'.cursor k = s.cursor k

/-- A receiving call on `r` may return this receiver and move its cursor. -/
structure Kept (r : ℕ) (s s' : Shared T) : Prop where
  receivers : s'.receivers = s.receivers
  user : ∀ k, s'.user k = s.user k ∨ s'.user k = none
  cursor : ∀ k ≠ r, s'.cursor k = s.cursor k

variable {u : Tid}

theorem Tended.of_eq (hr : s'.receivers = s.receivers) (hu : s'.user = s.user)
    (hc : s'.cursor = s.cursor) : Tended u s s' :=
  ⟨Nat.le_of_eq hr.symm, fun k => .inl (congrFun hu k), fun k _ _ => congrFun hc k⟩

theorem kept_refl (r : ℕ) (s : Shared T) : Kept r s s := ⟨rfl, fun _ => .inl rfl, fun _ _ => rfl⟩

theorem kept_setCursor (r : ℕ) (s : Shared T) (p : Option Addr) : Kept r s (s.setCursor r p) :=
  ⟨rfl, fun _ => .inl rfl, fun _ hk => update_of_ne hk _ _⟩

theorem Kept.ret (h : Kept x.r s s') (t : Tid) (res : Res T) :
    Kept x.r s (retRecv s' t x res).1 := by
  refine ⟨h.receivers, fun k => ?_, h.cursor⟩
  by_cases hk : k = x.r
  · exact .inr (hk ▸ update_self _ _ _)
  · exact (h.user k).imp (update_of_ne hk _ _).trans (update_of_ne hk _ _).trans

/-- The end of a scan leaves the receiver or returns it. -/
theorem Kept.scanned (h : Kept x.r s s') (t : Tid) : Kept x.r s (scanned s' t x).1 := by
  unfold Lubq.scanned
  split
  · exact h
  · exact h.ret t _
  · exact h.ret t _

theorem Kept.of_or (h : Kept y.recv.r s s')
    (hr : r.1 = s' ∨ r = Lubq.scanned s' t y.recv) : Kept y.recv.r s r.1 := by
  rcases hr with hr | hr
  · rwa [hr]
  · rw [hr]
    exact h.scanned t

theorem recv_kept (hpc : pc.recv = some x) {act : Act T}
    (hs : step cfg u act s pc = some r) : Kept x.r s r.1 := by
  obtain rfl : act = .run := run_of_recv hpc hs
  apply Post.of hs
  cases pc with
  | rTail | rHead | rTake | rRotate | rSenders | rNext | rRotateHead =>
    cases hpc
    simp only [step]
    repeat' split
    all_goals first
      | exact kept_refl _ s
      | exact kept_setCursor _ s _
      | exact (kept_refl _ s).scanned u
      | exact (kept_setCursor _ s _).scanned u
      | exact (kept_refl _ s).ret u _
  | rPop y w a next =>
    cases hpc
    simp only [step]
    split
    · exact (kept_refl _ s).of_or (scanNext_or s u y w a next)
    · exact ⟨rfl, fun _ => .inl rfl, fun _ _ => rfl⟩
  | rCursor y w a next =>
    cases hpc
    simp only [step]
    split
    · exact (kept_setCursor _ s _).scanned u
    · exact (kept_setCursor _ s _).of_or (scanNext_or _ u y w a next)
  | rWrap y =>
    cases hpc
    exact (kept_refl _ s).of_or (scanWrapped_or s u y s.head)
  | _ => simp [Pc.recv] at hpc

/-- A thread uses the receiver of its call. -/
theorem Local.user (hl : Local cfg t s g pc) (hx : pc.recv = some x) : s.user x.r = some t := by
  have hh := hl.here
  cases pc with
  | rTail | rTake | rHead | rSenders =>
    cases hx
    exact hh.1.user
  | rNext | rPop | rCursor =>
    cases hx
    obtain ⟨c, hst, _⟩ := hh
    exact hst.scan.recv.user
  | rWrap | rRotate | rRotateHead =>
    cases hx
    exact hh.1.recv.user
  | _ => simp [Pc.recv] at hx

theorem tended_setUser (hk : k < s.receivers) : Tended u s (s.setUser k (some u)) := by
  refine ⟨Nat.le_refl _, fun j => ?_, fun j _ _ => rfl⟩
  by_cases hjk : j = k
  · exact .inr (.inr (hjk ▸ hk))
  · exact .inl (update_of_ne hjk _ _)

theorem step_tended (hl : Local cfg u s g pc) {act : Act T}
    (hs : step cfg u act s pc = some r) : Tended u s r.1 := by
  cases hx : pc.recv with
  | some x =>
    have hkept := recv_kept hx hs
    refine ⟨Nat.le_of_eq hkept.receivers.symm, fun k => (hkept.user k).imp_right .inl,
      fun k hk _ => hkept.cursor k ?_⟩
    rintro rfl
    exact hk (hl.user hx)
  | none =>
    apply Post.of hs
    unfold step
    split
    all_goals try (simp only [send, addSender])
    all_goals repeat' split
    all_goals first
      | trivial
      | exact Tended.of_eq rfl rfl rfl
      | skip
    -- Left are the calls that take or make a receiver.
    · rename_i hk
      exact tended_setUser hk.1
    · rename_i hk _
      exact tended_setUser hk.1
    · refine ⟨Nat.le_succ _, fun j => .inl rfl, fun j _ hj => ?_⟩
      exact update_of_ne (Nat.ne_of_lt hj) _ _

/-- A receiver that is in use exists. -/
theorem user_lt {c : Conf T} (hc : (system T cfg).Reachable c)
    (hk : c.sh.user k = some t) : k < c.sh.receivers := by
  induction hc generalizing t with
  | start => exact absurd hk (by simp [system, System.ofStep, System.start,
      Shared.new])
  | @step c c' v hc hm ih =>
    obtain ⟨g, _, hL⟩ := run_ok hc
    obtain ⟨s', p', ⟨act, hs⟩, rfl⟩ := hm
    have htended := step_tended (hL v) hs
    rcases htended.user k with heq | hnone | hlt
    · exact Nat.lt_of_lt_of_le (ih (heq.symm.trans hk)) htended.receivers
    · exact absurd (hnone.symm.trans hk) (by simp)
    · exact Nat.lt_of_lt_of_le hlt htended.receivers

/-- **The other threads are an environment**: while `t` is inside a receiving call, each of
their moves is a step of `Env`. -/
theorem env_of_moves {c c' : Conf T} (hc : (system T cfg).Reachable c) {x : Recv T}
    (hx : (c.pc t).recv = some x) (hut : u ≠ t) (hm : (system T cfg).Moves u c c') :
    ∃ g g', Registry c.sh g ∧ Env x.r c.sh g c'.sh g' := by
  obtain ⟨g, hI, hL⟩ := run_ok hc
  have huser := (hL t).user hx
  obtain ⟨s', p', ⟨act, hs⟩, rfl⟩ := hm
  obtain ⟨⟨g', hok, _⟩, _⟩ := step_ok hI (hL u) hs
  have hR := hok.rely t (Ne.symm hut)
  refine ⟨g, g', hI.registry, hok.inv.registry, hR.owned, hR.nt, ?_⟩
  exact (step_tended (hL u) hs).cursor x.r (not_mine huser hut) (user_lt hc huser)

/-! ## The coverage of a scan -/

/-- A scan of the call `x`, at any point of it: it can go on; its steps are bounded by the
id of the tail it has read; the shards visited are an initial part of the order from the
cursor; and if it returns nothing, it has visited them all and each was empty. -/
structure Covers (cfg : Config) (t : Tid) (cur : Option ℕ) (x : Recv T) (l : List (Event T)) (n : ℕ)
    (s : Shared T) (pc : Pc T) : Prop where
  enabled : pc.scans = true → ∃ r, step cfg t .run s pc = some r
  bounded : (n = 0 ∧ l = [] ∧ pc = .rTail x) ∨ ∃ b, l.head? = some (.boundary b) ∧
    n ≤ 3 * (b + 1) + 6 ∧ ids l <+: order (startOf cur b) b ∧
    (pc.scans = false → (∃ s₁, scanned s₁ t { x with received := popped l } = (s, pc)) ∧
      (popped l = [] → ids l = order (startOf cur b) b ∧ ∀ v ∈ visits l, v.2 = []))

/-- A scan of the call `x` alone, from `s` to its return: it takes a prefix of each queue,
in the order from the cursor to the tail and around, and as much as it can; a scan for
one value takes it from the first queue that is not empty. -/
structure Collects (t : Tid) (cur : Option ℕ) (x : Recv T) (s s' : Shared T) (pc : Pc T) (b : ℕ)
    (taken : List (ℕ × T)) : Prop where
  tail : ∃ a, s.tail = some a ∧ (s.heap a).id = b
  returned : ∃ s₁, scanned s₁ t { x with received := taken.map Prod.snd } = (s', pc)
  prefixes : ∃ k : ℕ → ℕ,
    taken = (order (startOf cur b) b).flatMap (fun i => (s.queueAt i).take (k i)) ∧
    ∀ i, s'.queueAt i = (s.queueAt i).drop (k i)
  length : taken.length = min x.size ((order (startOf cur b) b).flatMap s.queueAt).length
  one : x.size = 1 →
    ((∀ i ∈ order (startOf cur b) b, s.queueAt i = []) ∧ taken = [] ∧ s'.queueAt = s.queueAt) ∨
    ∃ pre i post v rest, order (startOf cur b) b = pre ++ i :: post ∧
      (∀ j ∈ pre, s.queueAt j = []) ∧ s.queueAt i = v :: rest ∧ taken = [v] ∧
      s'.queueAt = update s.queueAt i rest

theorem covers_of_goes (hsize : 0 < x.size) (h : Goes cur x t l n g (s, pc)) :
    Covers cfg t cur x l n s pc := by
  refine ⟨fun hpc => scan_enabled cfg t hpc s, ?_⟩
  rcases h with hat | ⟨b, hdone⟩
  · have hscans : pc.scans = true := hat.scans
    rcases hat.covers with ⟨hpc, hl, hn⟩ | ⟨b, _, hfirst, hids, hn⟩
    · exact .inl ⟨hn, hl, hpc⟩
    · refine .inr ⟨b, hfirst, by omega, hids, fun hc => ?_⟩
      simp [hscans] at hc
  · refine .inr ⟨b, hdone.first, hdone.steps, hdone.initial,
      fun _ => ⟨hdone.returned, fun hnil => ?_⟩⟩
    refine ⟨?_, fun v hv => List.flatMap_eq_nil_iff.mp hnil v hv⟩
    rcases hdone.full with hfull | hfull
    · rw [hnil, List.length_nil] at hfull
      omega
    · exact hfull

/-- A scan that has returned has swept the whole order. -/
theorem Swept.collects (hreg : Registry s g) {b : ℕ} (h : Swept x s.queueAt l s' g)
    (hdone : Done cur x t l n s' pc b) : ∃ taken, Collects t cur x s s' pc b taken := by
  obtain ⟨⟨taken, hsweep, hpop⟩, hbound⟩ := h
  have hall : sweep x.size s.queueAt (order (startOf cur b) b) = (taken, s'.queueAt) := by
    rcases hdone.full with hfull | hfull
    · obtain ⟨js, hjs⟩ := hdone.initial
      rw [← hjs, sweep_full, hsweep]
      rw [hsweep, ← hfull, hpop, List.length_map]
    · rwa [← hfull]
  have hspec := sweep_spec x.size s.queueAt (nodup_order (startOf cur b) b)
  rw [hall] at hspec
  obtain ⟨k, htaken, hleft, _, hlen⟩ := hspec
  refine ⟨taken, ?_, ?_, ⟨k, htaken, hleft⟩, hlen, fun hone => ?_⟩
  · obtain ⟨a, ha, hid⟩ := hreg.tail_some
    have := hbound b hdone.first
    exact ⟨a, ha, by omega⟩
  · rw [← hpop]
    exact hdone.returned
  · rw [hone] at hall
    rcases sweep_one s.queueAt (order (startOf cur b) b) with ⟨hempty, hres⟩ |
      ⟨pre, i, post, v, rest, hsplit, hpre, hi, hres⟩
    · rw [hall, Prod.mk.injEq] at hres
      exact .inl ⟨hempty, hres⟩
    · rw [hall, Prod.mk.injEq] at hres
      exact .inr ⟨pre, i, post, v, rest, hsplit, hpre, hi, hres⟩

/-- **A scan covers every shard once**, for every list of shards and every cursor, whatever
the environment does; and alone it collects in the order from the cursor. -/
theorem scans_cover (hreg : Registry s g) (hcur : CursorAt s x.r cur) (hnil : x.received = [])
    (hsize : 0 < x.size) :
    (∀ l n s' g' pc, Scans cfg t (Env x.r) s g (.rTail x) l n s' g' pc →
      Covers cfg t cur x l n s' pc) ∧
    (∃ l n s' pc, Scans cfg t Alone s g (.rTail x) l n s' g pc ∧ pc.scans = false) ∧
    ∀ l n s' g' pc, Scans cfg t Alone s g (.rTail x) l n s' g' pc → pc.scans = false →
      ∃ b taken, Collects t cur x s s' pc b taken := by
  refine ⟨fun l n s' g' pc h => ?_, scan_ends hreg hcur hnil hsize .start,
    fun l n s' g' pc h hend => ?_⟩
  · exact covers_of_goes hsize (scan_run hreg hcur hnil hsize h).2
  · obtain ⟨_, _, hat | ⟨b, hdone⟩, hswept⟩ := scan_alone hreg hcur hnil hsize h
    · have hscans : pc.scans = true := hat.scans
      rw [hscans] at hend
      exact absurd hend (by simp)
    · exact ⟨b, hswept.collects hreg hdone⟩

/-- Two shards, the second with two values. -/
def twoShards : Shared ℕ :=
  { (Shared.new : Shared ℕ) with
    heap :=
      fun a => ⟨a, true, if a = 0 then some 1 else none, if a = 1 then [(1, 7), (1, 8)] else []⟩
    tail := some 1
    owned := [0, 1]
    nextId := 2 }

theorem twoShards_registry : Registry twoShards ⟨fun _ => .free, none, [], 2, 2⟩ := by
  have hcases :
      ∀ {i : ℕ} {a : Addr}, ([0, 1] : List Addr)[i]? = some a → i = 0 ∧ a = 0 ∨ i = 1 ∧ a = 1 := by
    intro i a h
    match i with
    | 0 => exact .inl ⟨rfl, (Option.some.inj h).symm⟩
    | 1 => exact .inr ⟨rfl, (Option.some.inj h).symm⟩
    | i + 2 => cases h
  refine ⟨fun i a h => ?_, rfl, by decide, by decide, by decide, by decide, rfl,
    fun i a h => ?_, rfl, by decide, fun _ => rfl⟩
  · rcases hcases h with ⟨rfl, rfl⟩ | ⟨rfl, rfl⟩ <;> rfl
  · rcases hcases h with ⟨rfl, rfl⟩ | ⟨rfl, rfl⟩ <;> rfl

/-- A scan for one value takes the first value of the second shard. -/
theorem scans_cover_two_shards : ∃ l n s' pc b taken,
    Scans ⟨10⟩ 0 Alone twoShards ⟨fun _ => .free, none, [], 2, 2⟩
      (.rTail ⟨0, .one, false, []⟩) l n s' ⟨fun _ => .free, none, [], 2, 2⟩ pc ∧
    Collects 0 none ⟨0, .one, false, []⟩ twoShards s' pc b taken ∧ taken = [(1, 7)] := by
  obtain ⟨_, ⟨l, n, s', pc, hrun, hend⟩, hall⟩ := @scans_cover ℕ ⟨10⟩ 0 twoShards _ none
    ⟨0, .one, false, []⟩ twoShards_registry rfl rfl (by decide)
  obtain ⟨b, taken, hc⟩ := hall l n s' _ pc hrun hend
  refine ⟨l, n, s', pc, b, taken, hrun, hc, ?_⟩
  obtain ⟨a, ha, hb⟩ := hc.tail
  obtain rfl : 1 = a := Option.some.inj ha
  obtain rfl : 1 = b := hb
  rcases hc.one rfl with ⟨hempty, _⟩ | ⟨pre, i, post, v, rest, hsplit, hpre, hi, htaken, _⟩
  · exact absurd (hempty 1 (by decide)) (by decide)
  · have hlist : [0, 1] = pre ++ i :: post := hsplit
    match pre with
    | [] =>
      obtain rfl : 0 = i := (List.cons.inj hlist).1
      exact absurd (show ([] : List (ℕ × ℕ)) = v :: rest from hi) (by simp)
    | j :: pre =>
      obtain ⟨_, htl⟩ := List.cons.inj hlist
      match pre with
      | [] =>
        obtain rfl : 1 = i := (List.cons.inj htl).1
        obtain rfl : (1, 7) = v := (List.cons.inj hi).1
        exact htaken
      | _ :: pre => exact absurd (List.cons.inj htl).2 (by simp)

/-! ## Scans in runs of the channel -/

/-- Runs of the channel from `c₀` while `t` scans, with what the scan shows and its steps. -/
inductive ScanRun (cfg : Config) (t : Tid) (c₀ : Conf T) : List (Event T) → ℕ → Conf T → Prop
  | start : ScanRun cfg t c₀ [] 0 c₀
  | own {l : List (Event T)} {n : ℕ} {c c' : Conf T} : ScanRun cfg t c₀ l n c →
      (c.pc t).scans = true → (system T cfg).Moves t c c' →
      ScanRun cfg t c₀ (l ++ (c.pc t).shows c.sh) (n + 1) c'
  | other {l : List (Event T)} {n : ℕ} {c c' : Conf T} {u : Tid} : ScanRun cfg t c₀ l n c →
      (c.pc t).scans = true → u ≠ t → (system T cfg).Moves u c c' → ScanRun cfg t c₀ l n c'

theorem ScanAt.recv (h : ScanAt cur x l n s g pc) : ∃ x', pc.recv = some x' ∧ x'.r = x.r := by
  cases pc with
  | rTail | rTake | rHead => exact ⟨_, rfl, congrArg Recv.r h.1⟩
  | rNext | rPop | rCursor =>
    obtain ⟨c, hst, _⟩ := h
    exact ⟨_, rfl, by rw [hst.seen.recv]⟩
  | rWrap | rRotate | rRotateHead => exact ⟨_, rfl, by rw [h.1.recv]⟩
  | _ => exact h.elim

/-- The list of shards tells how far its tail is. -/
theorem Registry.nt_eq (h : Registry s g) (h' : Registry s g') : g.nt = g'.nt := by
  obtain ⟨a, ha, hid⟩ := h.tail_some
  obtain ⟨b, hb, hid'⟩ := h'.tail_some
  obtain rfl : a = b := Option.some.inj (ha.symm.trans hb)
  have := h.nt_pos
  have := h'.nt_pos
  omega

/-- In a run of the channel a scan goes as it does in the environment. -/
theorem ScanRun.goes {c₀ c : Conf T} (hc : (system T cfg).Reachable c₀) (hpc : c₀.pc t = .rTail x)
    (hreg : Registry c₀.sh g) (hcur : CursorAt c₀.sh x.r cur) (hnil : x.received = [])
    (hsize : 0 < x.size) (h : ScanRun cfg t c₀ l n c) : (system T cfg).Reachable c ∧
      ∃ g', Registry c.sh g' ∧ Goes cur x t l n g' (c.sh, c.pc t) := by
  induction h with
  | start => exact ⟨hc, g, hreg, .inl (hpc ▸ ⟨rfl, rfl, rfl, hcur⟩)⟩
  | @own l n c c' _ hscans hm ih =>
    obtain ⟨hr, g', hreg', hat | ⟨b, hdone⟩⟩ := ih
    · refine ⟨.step hr hm, g', ?_⟩
      obtain ⟨s', p', ⟨act, hs⟩, rfl⟩ := hm
      obtain ⟨x', hx', _⟩ := hat.recv
      obtain rfl := run_of_recv hx' hs
      simpa only [update_self] using scan_step hreg' hnil hsize hat hs
    · simp [hdone.scans] at hscans
  | @other l n c c' u _ hscans hut hm ih =>
    obtain ⟨hr, g', hreg', hat | ⟨b, hdone⟩⟩ := ih
    · obtain ⟨x', hx', hxr⟩ := hat.recv
      obtain ⟨g₁, g₂, hreg₁, hE⟩ := env_of_moves hr hx' hut hm
      refine ⟨.step hr hm, g₂, hE.registry, .inl ?_⟩
      obtain ⟨s', p', _, rfl⟩ := hm
      simp only [update_of_ne hut.symm]
      exact hat.env ⟨hE.registry, hE.owned, hreg'.nt_eq hreg₁ ▸ hE.nt, hxr ▸ hE.cursor⟩
    · simp [hdone.scans] at hscans

/-- **Every scan of the channel** takes a number of steps that the tail it read bounds, and
visits the shards in the order from its cursor; if it returns nothing, each shard up to
that tail was empty when it was visited.  Meanwhile the other threads leave its cursor
alone and only add shards. -/
theorem channel_scans_cover {c₀ : Conf T} (hc : (system T cfg).Reachable c₀)
    (hpc : c₀.pc t = .rTail x) : ∃ cur, CursorAt c₀.sh x.r cur ∧
      ∀ l n c, ScanRun cfg t c₀ l n c → Covers cfg t cur x l n c.sh (c.pc t) ∧
        ((c.pc t).scans = true → ∀ u c', u ≠ t → (system T cfg).Moves u c c' →
          c'.sh.cursor x.r = c.sh.cursor x.r ∧ c.sh.owned <+: c'.sh.owned) := by
  obtain ⟨g, hI, hL⟩ := run_ok hc
  have hh := (hL t).here
  rw [hpc] at hh
  obtain ⟨_, hnil, hsize⟩ := hh
  obtain ⟨cur, hcur⟩ : ∃ cur, CursorAt c₀.sh x.r cur := by
    cases hp : c₀.sh.cursor x.r with
    | none => exact ⟨none, hp⟩
    | some a =>
      obtain ⟨i, hi⟩ := List.mem_iff_getElem?.mp (hI.flow.cursor x.r a hp)
      exact ⟨some i, a, hi, hp⟩
  refine ⟨cur, hcur, fun l n c h => ?_⟩
  obtain ⟨hr, g', _, hgoes⟩ := h.goes hc hpc hI.registry hcur hnil hsize
  refine ⟨covers_of_goes hsize hgoes, fun hscans u c' hut hm => ?_⟩
  rcases hgoes with hat | ⟨b, hdone⟩
  · obtain ⟨x', hx', hxr⟩ := hat.recv
    obtain ⟨_, _, _, hE⟩ := env_of_moves hr hx' hut hm
    exact ⟨hxr ▸ hE.cursor, hE.owned⟩
  · simp [hdone.scans] at hscans

/-- Runs a schedule while `t` scans. -/
def scanExec (cfg : Config) (t : Tid) : List (Tid × Act T) → List (Event T) → ℕ → Conf T →
    Option (List (Event T) × ℕ × Conf T)
  | [], l, n, c => some (l, n, c)
  | (u, act) :: sched, l, n, c =>
    match (c.pc t).scans, step cfg u act c.sh (c.pc u) with
    | true, some (s', pc') =>
      if u = t then scanExec cfg t sched (l ++ (c.pc t).shows c.sh) (n + 1) ⟨s', update c.pc u pc'⟩
      else scanExec cfg t sched l n ⟨s', update c.pc u pc'⟩
    | _, _ => none

theorem scanExec_run {sched : List (Tid × Act T)} {c₀ c c' : Conf T} {l' : List (Event T)} {n' : ℕ}
    (h : scanExec cfg t sched l n c = some (l', n', c')) (hrun : ScanRun cfg t c₀ l n c) :
    ScanRun cfg t c₀ l' n' c' := by
  fun_induction scanExec with
  | case1 =>
    cases h
    exact hrun
  | case2 _ _ _ _ _ s' pc' hscans hs ih => exact ih h (.own hrun hscans ⟨s', pc', ⟨_, hs⟩, rfl⟩)
  | case3 _ _ _ _ _ _ s' pc' hs hscans hut ih =>
    exact ih h (.other hrun hscans hut ⟨s', pc', ⟨_, hs⟩, rfl⟩)
  | case4 => cases h

/-- `try_recv` on two shards, the second with a value; a value that another thread sends to
the first one after its visit is not seen. -/
theorem channel_scans_cover_two_shards : ∃ c₀ c : Conf ℕ, (system ℕ ⟨10⟩).Reachable c₀ ∧
    ScanRun ⟨10⟩ 0 c₀ [.boundary 1, .visit 0 [], .visit 1 [7]] 8 c ∧ (c.pc 0).scans = false ∧
    ∃ cur, Covers ⟨10⟩ 0 cur ⟨0, .one, false, []⟩ [.boundary 1, .visit 0 [], .visit 1 [7]] 8
      c.sh (c.pc 0) := by
  obtain ⟨c₀, hexec, hpc, c, hscan, hend⟩ : ∃ c₀, exec ⟨10⟩ (calls 1 (.cloneSender 0) 2 ++
        [(1, .alloc 4)] ++ List.replicate 6 (1, .run) ++ calls 1 (.send 1 7) 0 ++
        calls 0 (.tryRecv 0) 0) = some c₀ ∧
      c₀.pc 0 = .rTail ⟨0, .one, false, []⟩ ∧
      ∃ c, scanExec ⟨10⟩ 0 (List.replicate 5 (0, .run) ++ [(1, .call (.send 0 8))] ++
        List.replicate 3 (0, .run)) [] 0 c₀ =
          some ([.boundary 1, .visit 0 [], .visit 1 [7]], 8, c) ∧ (c.pc 0).scans = false :=
    ⟨_, rfl, rfl, _, rfl, rfl⟩
  have hc := exec_reachable hexec
  have hrun := scanExec_run hscan .start
  obtain ⟨cur, _, hcovers⟩ := channel_scans_cover hc hpc
  exact ⟨c₀, c, hc, hrun, hend, cur, (hcovers _ _ _ hrun).1⟩

end Lubq
