/-
# The invariant of the linked-shard channel

Every shard has one `Lease`: it is free, it belongs to a live sender, a thread
holds it inside `clone` or `drop`, or it was lost in a panic.  `Registry` says how
far the list of shards has been published, `Leases` relates the leases to
`producer_active` and to the sender count, and `Flow` says where the sent values
are.  `Local` is what a program counter knows, and `Rely` what the others leave
alone.

The whole argument for closed detection rests on the field `zero` of `Rely`: a
sender count of zero is final, and with it the list of shards and the emptiness of
each shard.
-/
import Ubq.Lubq.Machine

namespace Lubq

variable {T : Type*} {cfg : Config} {t u : Tid} {s s' : Shared T}
variable {a : Addr} {i : ℕ} {y : Scan T}

/-! ## Ghost state -/

/-- Who may push to a shard. -/
inductive Lease
  | free
  | live (h : ℕ)
  | held (t : Tid)
  | lost
  deriving DecidableEq

/-- The leases; the owner of the registry lock; the threads inside `drop`; how many
shards are linked, and how many come up to the tail. -/
structure Ghost where
  lease : Addr → Lease
  lock : Option Tid
  dying : List Tid
  nl : ℕ
  nt : ℕ

variable {g g' : Ghost} {c : ℕ}

/-- The values of a shard, with their senders. -/
def Shared.queue (s : Shared T) (a : Addr) : List (ℕ × T) := (s.heap a).queue

/-- The links of the shards, as a map. -/
def Shared.next (s : Shared T) : Addr → Option Addr := fun a => (s.heap a).next

/-- The values of sender `h` in a tagged list. -/
def valuesOf (h : ℕ) (l : List (ℕ × T)) : List T := (l.filter (·.1 = h)).map Prod.snd

/-- The values that receiver `r` has popped, in order. -/
def Shared.popped (s : Shared T) (r : ℕ) : List T :=
  (s.recvs.filter (·.1 = r)).map fun e => e.2.2

/-- The values that a finished call handed to receiver `r`. -/
def handed (r : ℕ) : Op T → Res T → List T
  | .tryRecv r', .value v => if r' = r then [v] else []
  | .tryRecvBatchInto r' values _, .batch _ vec => if r' = r then vec.drop values.length else []
  | _, _ => []

/-- The values that the finished calls handed to receiver `r`, in order. -/
def Shared.got (s : Shared T) (r : ℕ) : List T := s.trace.flatMap fun e => handed r e.2.1 e.2.2

/-! ## The parts of the invariant -/

variable (cfg t s g)

/-- The list of shards.  Only the append of a shard, under the lock, makes `nt`,
`nl` and the number of shards differ. -/
structure Registry : Prop where
  ids : ∀ i a, s.owned[i]? = some a → (s.heap a).id = i
  next_id : s.nextId = s.owned.length
  nt_pos : 0 < g.nt
  nt_le : g.nt ≤ g.nl
  nl_le : g.nl ≤ s.owned.length
  len_le : s.owned.length ≤ g.nt + 1
  head : s.head = s.owned[0]?
  next : ∀ i a, s.owned[i]? = some a →
    s.next a = if i + 1 < g.nl then s.owned[i + 1]? else none
  tail : s.tail = s.owned[g.nt - 1]?
  locked : s.locked = true ↔ g.lock ≠ none
  settled : g.lock = none → g.nt = s.owned.length

/-- Leases and the sender count. -/
structure Leases : Prop where
  active : ∀ a ∈ s.owned, (s.heap a).producerActive = true ↔ g.lease a ≠ .free
  owned : ∀ a, g.lease a ≠ .free → a ∈ s.owned
  live_iff : ∀ a h, g.lease a = .live h ↔ h ∈ s.live ∧ s.shardOf[h]? = some a
  live_lt : ∀ h ∈ s.live, h < s.shardOf.length
  nodup : s.live.Nodup
  dying : g.dying.Nodup
  count : s.senders = s.live.length + g.dying.length
  bound : s.senders ≤ cfg.usizeMax + 1
  lent : ∀ h t, t ∈ s.lent h → h ∈ s.live
  keeper : ∀ t, g.lock = some t → ∃ h, t ∈ s.lent h

/-- Where the values are. -/
structure Flow : Prop where
  shard : ∀ (h : ℕ) (a : Addr), s.shardOf[h]? = some a → a ∈ s.owned
  home : ∀ a ∈ s.owned, ∀ e ∈ s.queue a, s.shardOf[e.1]? = some a
  send_lt : ∀ e ∈ s.sends, e.1 < s.shardOf.length
  recv_lt : ∀ e ∈ s.recvs, e.2.1 < s.shardOf.length
  flow : ∀ (h : ℕ) (a : Addr), s.shardOf[h]? = some a →
    valuesOf h s.sends = valuesOf h (s.recvs.map Prod.snd) ++ valuesOf h (s.queue a)
  cursor : ∀ r a, s.cursor r = some a → a ∈ s.owned
  handed : ∀ r, s.user r = none → s.got r = s.popped r

/-- The invariant. -/
structure Inv : Prop where
  registry : Registry s g
  leases : Leases cfg s g
  flow : Flow s

/-! ## What a program counter knows -/

/-- The thread holds the registry lock. -/
def Pc.locks : Pc T → Bool
  | .cScan .. | .cEmpty .. | .cCas .. | .cTail .. | .cLink .. | .cStore .. | .cUnlock ..
  | .cPanic .. => true
  | _ => false

/-- The shard whose lease the thread holds. -/
def Pc.holds : Pc T → Option Addr
  | .cTail _ a | .cLink _ a _ | .cStore _ a | .cUnlock _ a | .cAdd _ a | .cAddCas _ a _
  | .dActive _ a => some a
  | _ => none

/-- The thread is inside `Sender::drop`. -/
def Pc.drops : Pc T → Bool
  | .dActive .. | .dCount .. => true
  | _ => false

/-- All shards are linked and the tail is the last of them. -/
def Settled : Prop := g.nt = s.owned.length

/-- A shard that can be leased. -/
def Vacant (i : ℕ) (a : Addr) : Prop :=
  s.owned[i]? = some a ∧ (s.heap a).producerActive = false ∧ Settled s g

/-- The last shard, `a`, is owned but does not come up to the tail yet. -/
structure Appending (a : Addr) : Prop where
  last : s.owned[g.nt]? = some a
  queue : s.queue a = []

/-- A receiving call: what it has popped and not yet handed over, and what its
second scan knows. -/
structure Receiving (x : Recv T) : Prop where
  user : s.user x.r = some t
  popped : s.got x.r ++ x.received = s.popped x.r
  second : x.second = true → s.senders = 0

/-- The shards at the positions `p` were found empty, if the call has popped
nothing and the channel is closed. -/
def Drained (x : Recv T) (p : ℕ → Prop) : Prop :=
  x.second = true → x.received = [] → ∀ i a, p i → s.owned[i]? = some a → s.queue a = []

/-- The locals of a scan. -/
structure Scanning (y : Scan T) : Prop where
  recv : Receiving t s y.recv
  boundary : y.boundaryId < g.nt
  start : s.owned[y.startId]? = some y.start
  start_le : y.startId ≤ y.boundaryId
  last : y.recv.second = true → y.boundaryId + 1 = s.owned.length

/-- The positions that a scan has visited when it stands at position `c`. -/
def Visited (y : Scan T) (wrapped : Bool) (c i : ℕ) : Prop :=
  match wrapped with
  | false => y.startId ≤ i ∧ i < c
  | true => y.startId ≤ i ∧ i ≤ y.boundaryId ∨ i < c

/-- A scan at `shard`, position `c`. -/
structure Standing (y : Scan T) (wrapped : Bool) (shard : Addr) (c : ℕ) : Prop where
  scan : Scanning t s g y
  here : s.owned[c]? = some shard
  bounds : match wrapped with
    | false => y.startId ≤ c ∧ c ≤ y.boundaryId
    | true => c < y.startId
  drained : Drained s y.recv (Visited y wrapped c)

/-- The link that was read at position `c`. -/
def Linked (y : Scan T) (c : ℕ) (next : Option Addr) : Prop :=
  (∃ b, next = some b ∧ s.owned[c + 1]? = some b) ∨ next = none ∧ y.boundaryId ≤ c

/-- The assertion at each program counter. -/
def At : Pc T → Prop
  | .idle => True
  | .fault => False
  | .cLock h | .cSpin h => t ∈ s.lent h
  | .cScan h _ | .cPanic h => t ∈ s.lent h ∧ Settled s g
  | .cEmpty h i => t ∈ s.lent h ∧ ∃ a, Vacant s g i a
  | .cCas h i => t ∈ s.lent h ∧ ∃ a, Vacant s g i a ∧ s.queue a = []
  | .cTail h a => t ∈ s.lent h ∧ Appending s g a ∧ g.nl = g.nt
  | .cLink h a tail => t ∈ s.lent h ∧ Appending s g a ∧ g.nl = g.nt ∧ tail = s.tail
  | .cStore h a => t ∈ s.lent h ∧ Appending s g a ∧ g.nl = g.nt + 1
  | .cUnlock h a => t ∈ s.lent h ∧ s.queue a = [] ∧ Settled s g
  | .cAdd h a => t ∈ s.lent h ∧ s.queue a = []
  | .cAddCas h a count => t ∈ s.lent h ∧ s.queue a = [] ∧ count < cfg.usizeMax
  | .dActive .. | .dCount .. => True
  | .rTail x => Receiving t s x ∧ x.received = [] ∧ 0 < x.size
  | .rTake x boundaryId | .rHead x boundaryId => Receiving t s x ∧ x.received = [] ∧ 0 < x.size ∧
      boundaryId < g.nt ∧ (x.second = true → boundaryId + 1 = s.owned.length)
  | .rNext y wrapped shard => ∃ c, Standing t s g y wrapped shard c ∧
      y.recv.received.length < y.recv.size
  | .rPop y wrapped shard next => ∃ c, Standing t s g y wrapped shard c ∧
      y.recv.received.length < y.recv.size ∧ Linked s y c next
  | .rCursor y wrapped shard next => ∃ c, Standing t s g y wrapped shard c ∧
      y.recv.received.length ≤ y.recv.size ∧ y.recv.received ≠ [] ∧ Linked s y c next
  | .rWrap y => Scanning t s g y ∧ y.recv.received.length < y.recv.size ∧
      Drained s y.recv fun i => y.startId ≤ i ∧ i ≤ y.boundaryId
  | .rRotate y | .rRotateHead y => Scanning t s g y ∧ y.recv.received = [] ∧ 0 < y.recv.size ∧
      Drained s y.recv fun i => i ≤ y.boundaryId
  | .rSenders x => Receiving t s x ∧ x.received = [] ∧ 0 < x.size ∧ x.second = false

/-- The assertion of a thread, with what it holds. -/
structure Local (pc : Pc T) : Prop where
  lock : g.lock = some t ↔ pc.locks = true
  lease : ∀ a, g.lease a = .held t ↔ pc.holds = some a
  dying : t ∈ g.dying ↔ pc.drops = true
  here : At cfg t s g pc

/-- What thread `u` relies on. -/
structure Rely (u : Tid) (s : Shared T) (g : Ghost) (s' : Shared T) (g' : Ghost) : Prop where
  owned : s.owned <+: s'.owned
  nt : g.nt ≤ g'.nt
  lock : g'.lock = some u ↔ g.lock = some u
  mine : g.lock = some u → s'.owned = s.owned ∧ g'.nt = g.nt ∧ g'.nl = g.nl ∧
    ∀ a ∈ s.owned, (s.heap a).producerActive = false → (s'.heap a).producerActive = false
  lease : ∀ a, g'.lease a = .held u ↔ g.lease a = .held u
  quiet : ∀ a ∈ s.owned, s.queue a = [] → (s.heap a).producerActive = false ∧ g.lock = some u ∨
    g.lease a = .held u ∨ s.senders = 0 → s'.queue a = []
  lent : ∀ h, u ∈ s.lent h → u ∈ s'.lent h
  dying : u ∈ g'.dying ↔ u ∈ g.dying
  user : ∀ r, s.user r = some u → s'.user r = some u ∧ s'.got r = s.got r ∧
    s'.popped r = s.popped r
  zero : s.senders = 0 → s'.senders = 0 ∧ s'.owned = s.owned ∧ s'.shardOf = s.shardOf

variable {cfg t s g}

/-! ## The list of shards -/

/-- The head is the first shard. -/
theorem Registry.head_some (h : Registry s g) : ∃ a, s.head = some a ∧ s.owned[0]? = some a := by
  have := h.nl_le
  have := h.nt_le
  have := h.nt_pos
  have hget := List.getElem?_eq_getElem (show 0 < s.owned.length by omega)
  exact ⟨_, h.head.trans hget, hget⟩

/-- The tail is the last shard that an append has finished. -/
theorem Registry.tail_some (h : Registry s g) :
    ∃ a, s.tail = some a ∧ (s.heap a).id = g.nt - 1 := by
  have := h.nl_le
  have := h.nt_le
  have := h.nt_pos
  have hget := List.getElem?_eq_getElem (show g.nt - 1 < s.owned.length by omega)
  exact ⟨_, h.tail.trans hget, h.ids _ _ hget⟩

/-- A link that was read tells how far the list was published. -/
theorem Registry.linked (h : Registry s g) (ha : s.owned[c]? = some a)
    (hb : y.boundaryId < g.nt) : Linked s y c (s.heap a).next := by
  have hn : (s.heap a).next = if c + 1 < g.nl then s.owned[c + 1]? else none := h.next c a ha
  have := h.nl_le
  have := h.nt_le
  by_cases hlt : c + 1 < g.nl
  · have hget := List.getElem?_eq_getElem (show c + 1 < s.owned.length by omega)
    rw [if_pos hlt] at hn
    exact .inl ⟨_, hn.trans hget, hget⟩
  · rw [if_neg hlt] at hn
    exact .inr ⟨hn, by omega⟩

/-! ## Stability -/

theorem getElem?_of_prefix {α : Type*} {l l' : List α} {a : α} (h : l <+: l')
    (hi : l[i]? = some a) : l'[i]? = some a := by
  obtain ⟨m, rfl⟩ := h
  rwa [List.getElem?_append_left (List.getElem?_eq_some_iff.mp hi).1]

/-- A receiver in use is left alone by the others. -/
theorem Receiving.stable {x : Recv T} (hR : Rely u s g s' g') (h : Receiving u s x) :
    Receiving u s' x := by
  obtain ⟨huser, hgot, hpop⟩ := hR.user x.r h.user
  refine ⟨huser, ?_, fun hs => (hR.zero (h.second hs)).1⟩
  rw [hgot, hpop]
  exact h.popped

/-- What no sender can fill stays empty. -/
theorem Drained.stable {x : Recv T} {p : ℕ → Prop} (hR : Rely u s g s' g')
    (hx : Receiving u s x) (h : Drained s x p) : Drained s' x p := by
  intro hs hnil i a hp ha
  have hzero := hx.second hs
  rw [(hR.zero hzero).2.1] at ha
  exact hR.quiet a (List.mem_of_getElem? ha) (h hs hnil i a hp ha) (.inr (.inr hzero))

/-- The assertion of a scan. -/
theorem Scanning.stable (hR : Rely u s g s' g') (h : Scanning u s g y) :
    Scanning u s' g' y where
  recv := h.recv.stable hR
  boundary := Nat.lt_of_lt_of_le h.boundary hR.nt
  start := getElem?_of_prefix hR.owned h.start
  start_le := h.start_le
  last := fun hs => by
    rw [(hR.zero (h.recv.second hs)).2.1]
    exact h.last hs

/-- The shard a scan stands at stays where it is. -/
theorem Standing.stable {w : Bool} (hR : Rely u s g s' g')
    (h : Standing u s g y w a c) : Standing u s' g' y w a c where
  scan := h.scan.stable hR
  here := getElem?_of_prefix hR.owned h.here
  bounds := h.bounds
  drained := h.drained.stable hR h.scan.recv

/-- The link a scan has read stays valid. -/
theorem Linked.stable {next : Option Addr} (hR : Rely u s g s' g')
    (h : Linked s y c next) : Linked s' y c next := by
  rcases h with ⟨b, hb, hc⟩ | h
  · exact .inl ⟨b, hb, getElem?_of_prefix hR.owned hc⟩
  · exact .inr h

/-- An append under the lock is undisturbed. -/
theorem Appending.stable (hR : Rely u s g s' g') (hI : Inv cfg s g)
    (hlock : g.lock = some u) (hheld : g.lease a = .held u) (h : Appending s g a) :
    Appending s' g' a := by
  obtain ⟨howned, hnt, _, _⟩ := hR.mine hlock
  refine ⟨?_, hR.quiet a (hI.leases.owned a (by simp [hheld])) h.queue (.inr (.inl hheld))⟩
  rw [howned, hnt]
  exact h.last

/-- A vacant shard is leased by nobody. -/
theorem Vacant.lease (hI : Inv cfg s g) (h : Vacant s g i a) : g.lease a = .free := by
  by_contra hc
  have := (hI.leases.active a (List.mem_of_getElem? h.1)).mpr hc
  simp [h.2.1] at this

/-- Under the lock the list stays complete. -/
theorem Settled.stable (hR : Rely u s g s' g') (hlock : g.lock = some u) (h : Settled s g) :
    Settled s' g' := by
  obtain ⟨howned, hnt, _, _⟩ := hR.mine hlock
  show g'.nt = s'.owned.length
  rwa [howned, hnt]

/-- Under the lock a shard found inactive stays so. -/
theorem Vacant.stable (hR : Rely u s g s' g') (hlock : g.lock = some u)
    (h : Vacant s g i a) : Vacant s' g' i a := by
  obtain ⟨howned, hnt, _, hact⟩ := hR.mine hlock
  refine ⟨?_, hact a (List.mem_of_getElem? h.1) h.2.1, h.2.2.stable hR hlock⟩
  rw [howned]
  exact h.1

/-- The assertions survive the steps of the others. -/
theorem at_stable {pc : Pc T} (hI : Inv cfg s g) (hI' : Inv cfg s' g') (hR : Rely u s g s' g')
    (hl : Local cfg u s g pc) : At cfg u s' g' pc := by
  have hh := hl.here
  have hlock : pc.locks = true → g.lock = some u := hl.lock.mpr
  have hheld : ∀ a, pc.holds = some a → g.lease a = .held u := fun a => (hl.lease a).mpr
  have hempty : ∀ a, pc.holds = some a → s.queue a = [] → s'.queue a = [] := fun a ha hq =>
    hR.quiet a (hI.leases.owned a (by simp [hheld a ha])) hq (.inr (.inl (hheld a ha)))
  cases pc with
  | idle => trivial
  | fault => exact hh
  | cLock h | cSpin h => exact hR.lent h hh
  | cScan h i => exact ⟨hR.lent h hh.1, hh.2.stable hR (hlock rfl)⟩
  | cPanic h => exact ⟨hR.lent h hh.1, hh.2.stable hR (hlock rfl)⟩
  | cEmpty h i =>
    obtain ⟨hlent, a, ha⟩ := hh
    exact ⟨hR.lent h hlent, a, ha.stable hR (hlock rfl)⟩
  | cCas h i =>
    obtain ⟨hlent, a, ha, hq⟩ := hh
    exact ⟨hR.lent h hlent, a, ha.stable hR (hlock rfl), hR.quiet a (List.mem_of_getElem? ha.1) hq
      (.inl ⟨ha.2.1, hlock rfl⟩)⟩
  | cTail h a =>
    obtain ⟨_, hnt, hnl, _⟩ := hR.mine (hlock rfl)
    exact ⟨hR.lent h hh.1, hh.2.1.stable hR hI (hlock rfl) (hheld a rfl), by
      rw [hnt, hnl]; exact hh.2.2⟩
  | cLink h a tail =>
    obtain ⟨howned, hnt, hnl, _⟩ := hR.mine (hlock rfl)
    refine ⟨hR.lent h hh.1, hh.2.1.stable hR hI (hlock rfl) (hheld a rfl), ?_, ?_⟩
    · rw [hnt, hnl]
      exact hh.2.2.1
    · rw [hI'.registry.tail, howned, hnt, ← hI.registry.tail]
      exact hh.2.2.2
  | cStore h a =>
    obtain ⟨_, hnt, hnl, _⟩ := hR.mine (hlock rfl)
    exact ⟨hR.lent h hh.1, hh.2.1.stable hR hI (hlock rfl) (hheld a rfl), by
      rw [hnt, hnl]; exact hh.2.2⟩
  | cUnlock h a => exact ⟨hR.lent h hh.1, hempty a rfl hh.2.1, hh.2.2.stable hR (hlock rfl)⟩
  | cAdd h a => exact ⟨hR.lent h hh.1, hempty a rfl hh.2⟩
  | cAddCas h a n => exact ⟨hR.lent h hh.1, hempty a rfl hh.2.1, hh.2.2⟩
  | dActive | dCount => trivial
  | rTail x => exact ⟨hh.1.stable hR, hh.2⟩
  | rTake x b | rHead x b =>
    obtain ⟨hx, hnil, hsize, hb, hlast⟩ := hh
    refine ⟨hx.stable hR, hnil, hsize, Nat.lt_of_lt_of_le hb hR.nt, fun hs => ?_⟩
    rw [(hR.zero (hx.second hs)).2.1]
    exact hlast hs
  | rNext y w a =>
    obtain ⟨c, hc, hlt⟩ := hh
    exact ⟨c, hc.stable hR, hlt⟩
  | rPop y w a next =>
    obtain ⟨c, hc, hlt, hn⟩ := hh
    exact ⟨c, hc.stable hR, hlt, hn.stable hR⟩
  | rCursor y w a next =>
    obtain ⟨c, hc, hlt, hne, hn⟩ := hh
    exact ⟨c, hc.stable hR, hlt, hne, hn.stable hR⟩
  | rWrap y => exact ⟨hh.1.stable hR, hh.2.1, hh.2.2.stable hR hh.1.recv⟩
  | rRotate y | rRotateHead y =>
    exact ⟨hh.1.stable hR, hh.2.1, hh.2.2.1, hh.2.2.2.stable hR hh.1.recv⟩
  | rSenders x => exact ⟨hh.1.stable hR, hh.2⟩

/-- **Other threads leave a thread's knowledge alone.** -/
theorem local_stable {pc : Pc T} (hI : Inv cfg s g) (hI' : Inv cfg s' g')
    (hR : Rely u s g s' g') (h : Local cfg u s g pc) :
    Local cfg u s' g' pc where
  lock := hR.lock.trans h.lock
  lease := fun a => (hR.lease a).trans (h.lease a)
  dying := hR.dying.trans h.dying
  here := at_stable hI hI' hR h

end Lubq
