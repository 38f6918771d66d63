/-
# The proof outline of the Michael and Scott baseline

The nodes from the head on (`spine`) are linked; a node moves from private to linked
to unlinked to retired to free.  What a pinned thread may touch is said by `old`: the
nodes that were already unlinked when it was pinned.  Any other node is retired
later than that, hence guarded by the thread (`guards`), and the link of such a node
leads to another one (`closed`).  So everything a thread reaches from a head or tail
that is linked when it loads it stays allocated while the thread is pinned.

The tail is linked in the runs in which the head never passes it (`Behind`), which
is the check that `try_pop` leaves out.
-/
import Ubq.MsQueue.Machine
import Mathlib.Data.List.Nodup

namespace MsQueue

open Fifo (Event eventsOf Replay)

variable {α : Type*}
variable {p : Ptr} {a : Addr}

/-- The head is not moved past the tail. -/
def Behind (s : Shared α) : Pc α → Prop
  | .popSwing head _ => s.head = head.addr → s.tail ≠ head.addr
  | _ => True

instance (s : Shared α) (pc : Pc α) : Decidable (Behind s pc) := by
  unfold Behind
  split <;> infer_instance

/-- The runs in which the head never passes the tail. -/
def guardedSystem (α : Type*) : Interleave.System ℕ (Shared α) (Pc α) :=
  (system α).restrict fun _ s pc _ _ => Behind s pc

/-- Where a node is in its life. -/
inductive Status
  | free
  | priv (t : ℕ)
  | linked
  | unlinked (t : ℕ)
  | retired
  deriving DecidableEq

/-- The node has left the list. -/
def Status.gone : Status → Bool
  | .unlinked _ | .retired => true
  | _ => false

/-- The node is not yet linked. -/
def Status.isPriv : Status → Bool
  | .priv _ => true
  | _ => false

/-- The list of nodes, and what the threads may still reach. -/
structure Ghost where
  spine : List Addr
  status : Addr → Status
  old : ℕ → Addr → Bool
  /-- The thread that is about to take the value of the node. -/
  taker : Addr → Option ℕ

variable {s s' : Shared α} {g g' : Ghost} {t u : ℕ}

/-- A node that thread `t` may touch while it is pinned. -/
structure Safe (t : ℕ) (g : Ghost) (a : Addr) : Prop where
  live : g.status a ≠ .free
  young : g.old t a = false

/-- The invariant. -/
structure Inv (s : Shared α) (g : Ghost) : Prop where
  path : LinkPath s.next (some s.head) g.spine none
  nodup : g.spine.Nodup
  linked : ∀ a, g.status a = .linked ↔ a ∈ g.spine
  live : ∀ a, s.live a = true ↔ g.status a ≠ .free
  retired : ∀ a, s.retired a = true ↔ g.status a = .retired
  tail : s.tail ∈ g.spine
  gone : ∀ a, (g.status a).gone = true → s.next a ≠ none
  priv : ∀ a, (g.status a).isPriv = true → s.next a = none
  guards : ∀ t, t ∈ s.pinned → ∀ a, g.status a = .retired → g.old t a = false → t ∈ s.guards a
  closed : ∀ t, t ∈ s.pinned → ∀ a n, Safe t g a → s.next a = some n → Safe t g n
  old : ∀ t a, g.old t a = true → (g.status a).gone = true ∨ g.status a = .free
  taker : ∀ a t, g.taker a = some t → t ∈ s.pinned ∧ Safe t g a ∧
    (a = s.head ∨ (g.status a).gone = true)
  queue : ∃ q, Replay (s.log.map Prod.snd) q ∧ g.spine.tail.map s.data = q.map some

/-- A pointer that thread `t` holds. -/
structure Held (t : ℕ) (s : Shared α) (g : Ghost) (p : Ptr) : Prop where
  pinned : t ∈ s.pinned
  safe : Safe t g p.addr
  shared : (g.status p.addr).isPriv = false
  life : s.life p.addr = p.life

/-- The node that thread `t` is about to push. -/
def Own (t : ℕ) (s : Shared α) (g : Ghost) (node : Addr) (v : α) : Prop :=
  g.status node = .priv t ∧ s.data node = some v

/-- The event that thread `t` has logged and not yet returned. -/
def Pending (t : ℕ) (s : Shared α) (es : List (Event α)) : Prop :=
  eventsOf t s.log = eventsOf t s.returned ++ es

/-- The assertion at each program counter. -/
def At (t : ℕ) (s : Shared α) (g : Ghost) : Pc α → Prop
  | .idle => Pending t s []
  | .pushPin node v => Pending t s [] ∧ Own t s g node v
  | .pushLoad node v => Pending t s [] ∧ Own t s g node v ∧ t ∈ s.pinned
  | .pushNext node v tail | .pushLink node v tail =>
    Pending t s [] ∧ Own t s g node v ∧ Held t s g tail
  | .pushSwing node v tail =>
    Pending t s [.push v] ∧ Held t s g tail ∧ s.next tail.addr = some node
  | .pushHelp node v tail n =>
    Pending t s [] ∧ Own t s g node v ∧ Held t s g tail ∧ s.next tail.addr = some n
  | .pushed v => Pending t s [.push v]
  | .popLoad => Pending t s [] ∧ t ∈ s.pinned
  | .popNext head => Pending t s [] ∧ Held t s g head ∧
    (head.addr = s.head ∨ (g.status head.addr).gone = true)
  | .popSwing head next => Pending t s [] ∧ Held t s g head ∧
    s.next head.addr = some next.addr ∧ s.life next.addr = next.life
  | .popTake head next => ∃ v, Pending t s [.pop (some v)] ∧ Held t s g next ∧
    g.status head.addr = .unlinked t ∧ g.taker next.addr = some t ∧ s.data next.addr = some v
  | .popRetire head value => Pending t s [.pop value] ∧ g.status head.addr = .unlinked t
  | .popped value => Pending t s [.pop value]
  | .fault => False

/-- The node whose value the thread is about to take. -/
def Pc.takes : Pc α → Option Addr
  | .popTake _ next => some next.addr
  | _ => none

/-- The assertion of a thread. -/
structure Local (t : ℕ) (s : Shared α) (g : Ghost) (pc : Pc α) : Prop where
  here : At t s g pc
  takes : ∀ a, g.taker a = some t → pc.takes = some a

/-- What thread `u` may rely on. -/
structure Rely (u : ℕ) (s : Shared α) (g : Ghost) (s' : Shared α) (g' : Ghost) : Prop where
  pinned : u ∈ s'.pinned ↔ u ∈ s.pinned
  events : eventsOf u s'.log = eventsOf u s.log
  returns : eventsOf u s'.returned = eventsOf u s.returned
  safe : u ∈ s.pinned → ∀ a, Safe u g a → Safe u g' a ∧ s'.life a = s.life a ∧
    (∀ n, s.next a = some n → s'.next a = some n) ∧
    ((g.status a).isPriv = false → (g'.status a).isPriv = false) ∧
    (a = s.head ∨ (g.status a).gone = true → a = s'.head ∨ (g'.status a).gone = true)
  own : ∀ a, g.status a = .priv u → g'.status a = .priv u ∧ s'.data a = s.data a
  unlinked : ∀ a, g.status a = .unlinked u → g'.status a = .unlinked u
  taker : ∀ a, g'.taker a = some u ↔ g.taker a = some u
  taken : ∀ a, g.taker a = some u → s'.data a = s.data a

theorem pending_stable {es : List (Event α)} (hR : Rely u s g s' g') (h : Pending u s es) :
    Pending u s' es := by
  unfold Pending at h ⊢
  rwa [hR.events, hR.returns]

theorem held_stable (hR : Rely u s g s' g') (h : Held u s g p) : Held u s' g' p := by
  obtain ⟨hsafe, hlife, _, hpriv, _⟩ := hR.safe h.pinned p.addr h.safe
  exact ⟨hR.pinned.mpr h.pinned, hsafe, hpriv h.shared, hlife.trans h.life⟩

theorem own_stable {node : Addr} {v : α} (hR : Rely u s g s' g') (h : Own u s g node v) :
    Own u s' g' node v := by
  obtain ⟨hstatus, hdata⟩ := hR.own node h.1
  exact ⟨hstatus, hdata.trans h.2⟩

theorem next_stable {n : Addr} (hR : Rely u s g s' g') (h : Held u s g p)
    (hn : s.next p.addr = some n) : s'.next p.addr = some n :=
  (hR.safe h.pinned p.addr h.safe).2.2.1 n hn

theorem at_stable {pc : Pc α} (hG : Inv s g) (hR : Rely u s g s' g') (h : At u s g pc) :
    At u s' g' pc := by
  cases pc with
  | idle => exact pending_stable hR h
  | pushPin node v => exact ⟨pending_stable hR h.1, own_stable hR h.2⟩
  | pushLoad node v =>
    exact ⟨pending_stable hR h.1, own_stable hR h.2.1, hR.pinned.mpr h.2.2⟩
  | pushNext node v tail | pushLink node v tail =>
    exact ⟨pending_stable hR h.1, own_stable hR h.2.1, held_stable hR h.2.2⟩
  | pushSwing node v tail =>
    exact ⟨pending_stable hR h.1, held_stable hR h.2.1, next_stable hR h.2.1 h.2.2⟩
  | pushHelp node v tail n =>
    obtain ⟨hp, hown, hheld, hn⟩ := h
    exact ⟨pending_stable hR hp, own_stable hR hown, held_stable hR hheld, next_stable hR hheld hn⟩
  | pushed v => exact pending_stable hR h
  | popLoad => exact ⟨pending_stable hR h.1, hR.pinned.mpr h.2⟩
  | popNext head =>
    obtain ⟨hp, hheld, hwhere⟩ := h
    exact ⟨pending_stable hR hp, held_stable hR hheld,
      (hR.safe hheld.pinned _ hheld.safe).2.2.2.2 hwhere⟩
  | popSwing head next =>
    obtain ⟨hp, hheld, hn, hlife⟩ := h
    have hnext := hG.closed u hheld.pinned _ _ hheld.safe hn
    exact ⟨pending_stable hR hp, held_stable hR hheld, next_stable hR hheld hn,
      (hR.safe hheld.pinned _ hnext).2.1.trans hlife⟩
  | popTake head next =>
    obtain ⟨v, hp, hheld, hstatus, htaker, hdata⟩ := h
    exact ⟨v, pending_stable hR hp, held_stable hR hheld, hR.unlinked _ hstatus,
      (hR.taker _).mpr htaker, (hR.taken _ htaker).trans hdata⟩
  | popRetire head value => exact ⟨pending_stable hR h.1, hR.unlinked _ h.2⟩
  | popped value => exact pending_stable hR h
  | fault => exact h

theorem local_stable {pc : Pc α} (hG : Inv s g) (hR : Rely u s g s' g') (h : Local u s g pc) :
    Local u s' g' pc :=
  ⟨at_stable hG hR h.here, fun a ha => h.takes a ((hR.taker a).mp ha)⟩

/-! ## What the invariant says about held nodes -/

/-- A node that a pinned thread may touch is not freed. -/
theorem safe_guarded (hG : Inv s g) (ht : t ∈ s.pinned) (hsafe : Safe t g a)
    (hret : s.retired a = true) : s.guards a ≠ [] := by
  have hmem := hG.guards t ht a ((hG.retired a).mp hret) hsafe.young
  intro h
  simp [h] at hmem

theorem held_valid (hG : Inv s g) (h : Held t s g p) : s.valid p = true := by
  simp [Shared.valid, (hG.live p.addr).mpr h.safe.live, h.life]

/-- A linked node is safe for everybody. -/
theorem linked_safe (hG : Inv s g) (ha : a ∈ g.spine) : Safe t g a := by
  have hstatus := (hG.linked a).mpr ha
  refine ⟨by simp [hstatus], ?_⟩
  by_contra h
  rcases hG.old t a (by simpa using h) with h | h <;> simp [hstatus, Status.gone] at h

theorem linked_held (hG : Inv s g) (ht : t ∈ s.pinned) (ha : a ∈ g.spine) :
    Held t s g (s.ptr a) :=
  ⟨ht, linked_safe hG ha, by simp [Shared.ptr, (hG.linked a).mpr ha, Status.isPriv], rfl⟩

theorem head_mem (hG : Inv s g) : ∃ rest, g.spine = s.head :: rest := by
  cases h : g.spine with
  | nil =>
    have hpath := hG.path
    rw [h] at hpath
    simp [LinkPath] at hpath
  | cons a rest =>
    have hpath := hG.path
    rw [h] at hpath
    exact ⟨rest, by rw [Option.some.inj hpath.1]⟩

/-- A shared node without a successor is the last of the list. -/
theorem last_linked (hG : Inv s g) (h : Held t s g p) (hnext : s.next p.addr = none) :
    p.addr ∈ g.spine := by
  rw [← hG.linked]
  cases hstatus : g.status p.addr with
  | free => exact absurd hstatus h.safe.live
  | priv u =>
    have hshared := h.shared
    simp [hstatus, Status.isPriv] at hshared
  | linked => rfl
  | unlinked u => exact absurd hnext (hG.gone _ (by simp [hstatus, Status.gone]))
  | retired => exact absurd hnext (hG.gone _ (by simp [hstatus, Status.gone]))

/-- The successor of a linked node is linked. -/
theorem next_linked (hG : Inv s g) {a n : Addr} (ha : a ∈ g.spine) (hn : s.next a = some n) :
    n ∈ g.spine := by
  obtain ⟨k, hk, rfl⟩ := List.getElem_of_mem ha
  have hnext := path_next hG.path (List.getElem?_eq_getElem hk)
  rw [hn] at hnext
  exact List.mem_of_getElem? hnext.symm

/-- A linked node without a successor ends the list. -/
theorem spine_last (hG : Inv s g) (ha : a ∈ g.spine) (hn : s.next a = none) :
    ∃ l, g.spine = l ++ [a] ∧ a ∉ l := by
  obtain ⟨k, hk, hka⟩ := List.getElem_of_mem ha
  have hnext := path_next hG.path (List.getElem?_eq_getElem hk)
  rw [hka, hn] at hnext
  have hlast : g.spine.length = k + 1 := by
    have := List.getElem?_eq_none_iff.mp hnext.symm
    omega
  have hsplit : g.spine = g.spine.take k ++ [a] := by
    rw [← hka, List.take_append_getElem, List.take_of_length_le (by omega)]
  refine ⟨g.spine.take k, hsplit, fun hmem => ?_⟩
  have hnodup := hG.nodup
  rw [hsplit] at hnodup
  exact (List.nodup_append.mp hnodup).2.2 a hmem a (by simp) rfl

end MsQueue
