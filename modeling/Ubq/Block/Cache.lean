/-
# The cache of block layouts

`Block::layout` keeps the layouts it has computed in 64 buckets, each a list that grows
at its head by compare-and-swap and is never shortened.  An entry is found by the stride
and the offset of the slots, although `BlockLayout::new` also looks at alignments, and a
failed exchange makes the loop look only at the entries in front of its old snapshot.

`step` is one atomic step of `Block::layout`.  The ghost `lists` holds the entries of
each bucket from its head on; `At` says which of them a call has already looked at.
`outline` carries this through every run, and `cache_transparent` is what follows: every
finished call has the result of `BlockLayout::new`, no key is entered twice, and a call
whose key is in its bucket ends.
-/
import Ubq.Block.Layout
import Ubq.Chain
import Ubq.Interleave
import Mathlib.Data.List.Infix

namespace Block.Cache

open Function Interleave

/-- Threads. -/
abbrev Tid := ℕ

/-! ## The machine -/

/-- `CachedBlockLayout`. -/
structure Node where
  slotsOffset : ℕ
  slotStride : ℕ
  layout : BlockLayout
  next : Option Addr

/-- The entry is the one for this kind of block. -/
def Node.Matches (n : Node) (k : Kind) : Prop :=
  n.slotStride = k.slotStride ∧ n.slotsOffset = k.slotsOffset

instance (n : Node) (k : Kind) : Decidable (n.Matches k) :=
  inferInstanceAs (Decidable (_ ∧ _))

/-- The bucket of a kind, from the hash of its stride and offset. -/
def bucketOf (m : Target) (k : Kind) : ℕ :=
  let hash := BitVec.ofNat m.bits k.slotStride * 31#m.bits ^^^ BitVec.ofNat m.bits k.slotsOffset
  ((hash ^^^ (hash >>> 6)) &&& 63#m.bits).toNat

/-- The table, the nodes and the calls that have returned. -/
structure Shared where
  bucket : ℕ → Option Addr
  heap : Addr → Node
  live : Addr → Bool
  /-- The calls that have ended, with their layout or the message of their panic. -/
  trace : List (Tid × Kind × Except String BlockLayout)

namespace Shared

variable (s : Shared)

/-- The link of a node. -/
def next (a : Addr) : Option Addr := (s.heap a).next

/-- `Box::new`. -/
def alloc (a : Addr) (n : Node) : Shared :=
  { s with heap := update s.heap a n, live := update s.live a true }

/-- The link of a node is stored. -/
def setNext (a : Addr) (p : Option Addr) : Shared :=
  { s with heap := update s.heap a { s.heap a with next := p } }

/-- A node is dropped. -/
def free (a : Addr) : Shared := { s with live := update s.live a false }

end Shared

/-- The next access of a thread. -/
inductive Pc
  | idle
  | load (k : Kind)
  /-- The first loop, at `cached` of the list from `head`. -/
  | scan (k : Kind) (head cached : Option Addr)
  | create (k : Kind) (head : Option Addr)
  | box (k : Kind) (head : Option Addr) (layout : BlockLayout)
  | link (k : Kind) (head : Option Addr) (new : Addr) (layout : BlockLayout)
  | cas (k : Kind) (head : Option Addr) (new : Addr) (layout : BlockLayout)
  /-- The inner loop after a failed exchange, at `cached` of the list from `current`. -/
  | rescan (k : Kind) (head current cached : Option Addr) (new : Addr) (layout : BlockLayout)
  | fault

/-- What the scheduler decides. -/
inductive Act
  | call (k : Kind)
  | run
  | alloc (a : Addr)

/-- The call returns. -/
def ret (s : Shared) (t : Tid) (k : Kind) (r : Except String BlockLayout) : Shared × Pc :=
  ({ s with trace := s.trace ++ [(t, k, r)] }, .idle)

/-- One atomic step of `Block::layout`. -/
def step (m : Target) (t : Tid) : Act → Shared → Pc → Option (Shared × Pc)
  | .call k, s, .idle => some (s, .load k)
  | .run, s, .load k => some (s, .scan k (s.bucket (bucketOf m k)) (s.bucket (bucketOf m k)))
  | .run, s, .scan k head none => some (s, .create k head)
  | .run, s, .scan k head (some a) =>
    if (s.heap a).Matches k then some (ret s t k (.ok (s.heap a).layout))
    else some (s, .scan k head (s.heap a).next)
  | .run, s, .create k head =>
    match BlockLayout.new m k with
    | .error e => some (ret s t k (.error e))
    | .ok layout => some (s, .box k head layout)
  | .alloc a, s, .box k head layout =>
    if s.live a then none
    else some (s.alloc a ⟨k.slotsOffset, k.slotStride, layout, head⟩, .link k head a layout)
  | .run, s, .link k head new layout => some (s.setNext new head, .cas k head new layout)
  | .run, s, .cas k head new layout =>
    if s.bucket (bucketOf m k) = head then
      some (ret { s with bucket := update s.bucket (bucketOf m k) (some new) } t k
        (.ok layout))
    else some (s, .rescan k head (s.bucket (bucketOf m k)) (s.bucket (bucketOf m k)) new layout)
  | .run, s, .rescan k head current cached new layout =>
    if cached = head then some (s, .link k current new layout)
    else match cached with
      | none => some (s, .fault)
      | some a =>
        if (s.heap a).Matches k then some (ret (s.free new) t k (.ok (s.heap a).layout))
        else some (s, .rescan k head current (s.heap a).next new layout)
  | _, _, _ => none

/-- The table before the first call. -/
def Shared.empty : Shared where
  bucket := fun _ => none
  heap := fun _ => ⟨0, 0, ⟨0, 0, 0⟩, none⟩
  live := fun _ => false
  trace := []

/-- The threads that share the table. -/
def system (m : Target) : System Tid Shared Pc :=
  System.ofStep Shared.empty Pc.idle (step m)

/-- Their configurations. -/
abbrev Conf := Interleave.Conf Tid Shared Pc

/-! ## The outline -/

/-- The entries of each bucket from its head on, and who holds a private node. -/
structure Ghost where
  lists : ℕ → List Addr
  held : Addr → Option Tid

variable {m : Target} {t u : Tid} {s s' : Shared} {g g' : Ghost} {k : Kind} {head : Option Addr}
variable {b : ℕ} {l : List Addr} {pc : Pc} {a new : Addr} {layout : BlockLayout} {p : Option Addr}

/-- The entry is what `BlockLayout::new` computes for some kind with this key. -/
def Node.Good (m : Target) (n : Node) : Prop :=
  ∃ k, n.Matches k ∧ BlockLayout.new m k = .ok n.layout

/-- **A hit is the right layout**, whichever kind the entry was made for. -/
theorem Node.Good.new_eq {n : Node} (h : n.Good m) (hk : n.Matches k) :
    BlockLayout.new m k = .ok n.layout := by
  obtain ⟨k', hk', hnew⟩ := h
  exact (BlockLayout.new_congr (hk.2.symm.trans hk'.2) (hk.1.symm.trans hk'.1)).mpr hnew

/-- The key of a node. -/
def key (s : Shared) (a : Addr) : ℕ × ℕ := ((s.heap a).slotStride, (s.heap a).slotsOffset)

/-- The invariant. -/
structure Inv (m : Target) (s : Shared) (g : Ghost) : Prop where
  path : ∀ b, LinkPath s.next (s.bucket b) (g.lists b) none
  keys : ∀ b, ((g.lists b).map (key s)).Nodup
  entry : ∀ a b, a ∈ g.lists b → s.live a = true ∧ g.held a = none ∧ (s.heap a).Good m
  live : ∀ a t, g.held a = some t → s.live a = true
  trace : ∀ e ∈ s.trace, e.2.2 = BlockLayout.new m e.2.1

/-- `l` is the part of bucket `b` from `p` on. -/
structure Snap (s : Shared) (g : Ghost) (b : ℕ) (p : Option Addr) (l : List Addr) : Prop where
  path : LinkPath s.next p l none
  suffix : l <:+ g.lists b

/-- No entry of the list is one for `k`. -/
def Misses (s : Shared) (k : Kind) (l : List Addr) : Prop := ∀ a ∈ l, ¬ (s.heap a).Matches k

/-- The whole snapshot has been looked at. -/
def Missed (m : Target) (s : Shared) (g : Ghost) (k : Kind) (head : Option Addr) : Prop :=
  ∃ l, Snap s g (bucketOf m k) head l ∧ Misses s k l

/-- The new node is ready to be published. -/
def Prepared (m : Target) (s : Shared) (k : Kind) (new : Addr) (layout : BlockLayout) : Prop :=
  BlockLayout.new m k = .ok layout ∧ (s.heap new).Matches k ∧ (s.heap new).layout = layout

/-- The node a call has allocated and not published. -/
def Pc.node : Pc → Option Addr
  | .link _ _ new _ | .cas _ _ new _ | .rescan _ _ _ _ new _ => some new
  | _ => none

/-- The assertion at each program counter. -/
def At (m : Target) (s : Shared) (g : Ghost) : Pc → Prop
  | .idle | .load _ => True
  | .scan k head cached => ∃ seen rest, Snap s g (bucketOf m k) head (seen ++ rest) ∧
      LinkPath s.next cached rest none ∧ Misses s k seen
  | .create k head => Missed m s g k head
  | .box k head layout => Missed m s g k head ∧ BlockLayout.new m k = .ok layout
  | .link k head new layout => Missed m s g k head ∧ Prepared m s k new layout
  | .cas k head new layout =>
      Missed m s g k head ∧ Prepared m s k new layout ∧ s.next new = head
  | .rescan k head current cached new layout => Prepared m s k new layout ∧
      ∃ old seen rest, Snap s g (bucketOf m k) head old ∧ Misses s k old ∧
        Snap s g (bucketOf m k) current (seen ++ rest) ∧ LinkPath s.next cached rest none ∧
        old <:+ rest ∧ Misses s k seen
  | .fault => False

/-- The assertion of a thread, with the node it holds. -/
structure Local (m : Target) (t : Tid) (s : Shared) (g : Ghost) (pc : Pc) : Prop where
  held : ∀ a, g.held a = some t ↔ pc.node = some a
  here : At m s g pc

/-- What the other threads leave as it is. -/
structure Rely (u : Tid) (s : Shared) (g : Ghost) (s' : Shared) (g' : Ghost) : Prop where
  grows : ∀ b, g.lists b <:+ g'.lists b
  same : ∀ a b, a ∈ g.lists b → s'.heap a = s.heap a
  held : ∀ a, g'.held a = some u ↔ g.held a = some u
  mine : ∀ a, g.held a = some u → s'.heap a = s.heap a

theorem Rely.refl (u : Tid) (s : Shared) (g : Ghost) : Rely u s g s g :=
  ⟨fun _ => List.suffix_refl _, fun _ _ _ => rfl, fun _ => Iff.rfl, fun _ _ => rfl⟩

/-! ### Stability -/

section Stable

theorem Rely.path (hR : Rely u s g s' g')
    (hl : ∀ a ∈ l, a ∈ g.lists b) (h : LinkPath s.next p l none) : LinkPath s'.next p l none := by
  apply path_congr _ h
  intro a ha
  unfold Shared.next
  rw [hR.same a b (hl a ha)]

theorem Rely.snap (hR : Rely u s g s' g') (h : Snap s g b p l) : Snap s' g' b p l :=
  ⟨hR.path (fun _ ha => h.suffix.subset ha) h.path, h.suffix.trans (hR.grows b)⟩

theorem Rely.misses (hR : Rely u s g s' g')
    (hl : ∀ a ∈ l, a ∈ g.lists b) (h : Misses s k l) : Misses s' k l := by
  intro a ha
  rw [hR.same a b (hl a ha)]
  exact h a ha

theorem Rely.missed (hR : Rely u s g s' g') (h : Missed m s g k head) :
    Missed m s' g' k head := by
  obtain ⟨l, hsnap, hmiss⟩ := h
  exact ⟨l, hR.snap hsnap, hR.misses (fun _ ha => hsnap.suffix.subset ha) hmiss⟩

theorem Rely.prepared (hR : Rely u s g s' g')
    (hnew : g.held new = some u) (h : Prepared m s k new layout) :
    Prepared m s' k new layout := by
  unfold Prepared
  rwa [hR.mine new hnew]

theorem local_stable (hR : Rely u s g s' g') (h : Local m u s g pc) : Local m u s' g' pc := by
  obtain ⟨hheld, hat⟩ := h
  refine ⟨fun a => (hR.held a).trans (hheld a), ?_⟩
  have hmine : ∀ a, pc.node = some a → g.held a = some u := fun a ha => (hheld a).mpr ha
  cases pc with
  | idle | load => trivial
  | scan k head cached =>
    obtain ⟨seen, rest, hsnap, hpath, hmiss⟩ := hat
    have hmem : ∀ a, a ∈ seen ++ rest → a ∈ g.lists (bucketOf m k) := fun _ ha =>
      hsnap.suffix.subset ha
    exact ⟨seen, rest, hR.snap hsnap, hR.path (fun a ha => hmem a (by simp [ha])) hpath,
      hR.misses (fun a ha => hmem a (by simp [ha])) hmiss⟩
  | create => exact hR.missed hat
  | box => exact ⟨hR.missed hat.1, hat.2⟩
  | link k head new layout => exact ⟨hR.missed hat.1, hR.prepared (hmine new rfl) hat.2⟩
  | cas k head new layout =>
    refine ⟨hR.missed hat.1, hR.prepared (hmine new rfl) hat.2.1, ?_⟩
    unfold Shared.next
    rw [hR.mine new (hmine new rfl)]
    exact hat.2.2
  | rescan k head current cached new layout =>
    obtain ⟨hprep, old, seen, rest, hold, hmold, hsnap, hpath, hsuf, hmiss⟩ := hat
    have hmem : ∀ a, a ∈ seen ++ rest → a ∈ g.lists (bucketOf m k) := fun _ ha =>
      hsnap.suffix.subset ha
    exact ⟨hR.prepared (hmine new rfl) hprep, old, seen, rest, hR.snap hold,
      hR.misses (fun _ ha => hold.suffix.subset ha) hmold, hR.snap hsnap,
      hR.path (fun a ha => hmem a (by simp [ha])) hpath, hsuf,
      hR.misses (fun a ha => hmem a (by simp [ha])) hmiss⟩
  | fault => exact hat

end Stable

/-! ### The steps -/

/-- The step keeps the outline. -/
def Kept (m : Target) (t : Tid) (s : Shared) (g : Ghost) (r : Shared × Pc) : Prop :=
  ∃ g', Inv m r.1 g' ∧ Local m t r.1 g' r.2 ∧ ∀ u, u ≠ t → Rely u s g r.1 g'

/-- Nothing is written. -/
theorem kept_read (h : Inv m s g) (hl : Local m t s g pc) : Kept m t s g (s, pc) :=
  ⟨g, h, hl, fun u _ => Rely.refl u s g⟩

/-- A call that holds no node any more returns. -/
theorem kept_ret (g' : Ghost) (h : Inv m s' g') (hfree : ∀ a, g'.held a ≠ some t)
    (hR : ∀ u, u ≠ t → Rely u s g s' g') {r : Except String BlockLayout}
    (hr : r = BlockLayout.new m k) : Kept m t s g (ret s' t k r) := by
  refine ⟨g', { h with trace := ?_ }, ⟨fun a => ?_, trivial⟩, fun u hu => ?_⟩
  · intro e he
    rcases List.mem_append.mp he with he | he
    · exact h.trace e he
    · rw [List.mem_singleton] at he
      subst he
      exact hr
  · simp [hfree a, ret, Pc.node]
  · exact ⟨(hR u hu).grows, (hR u hu).same, (hR u hu).held, (hR u hu).mine⟩

/-- A node in no bucket may be written. -/
theorem Inv.write (h : Inv m s g) (ha : ∀ b, a ∉ g.lists b) (n : Node) :
    Inv m { s with heap := update s.heap a n } g ∧
    ∀ c b, c ∈ g.lists b → update s.heap a n c = s.heap c := by
  have hlist : ∀ c b, c ∈ g.lists b → update s.heap a n c = s.heap c := by
    intro c b hc
    apply update_of_ne
    rintro rfl
    exact ha b hc
  refine ⟨⟨fun b => ?_, fun b => ?_, fun c b hc => ?_, h.live, h.trace⟩, hlist⟩
  · apply path_congr _ (h.path b)
    intro c hc
    exact congrArg Node.next (hlist c b hc)
  · rw [List.map_congr_left (g := key s)]
    · exact h.keys b
    · intro c hc
      exact congrArg (fun n => (n.slotStride, n.slotsOffset)) (hlist c b hc)
  · refine ⟨(h.entry c b hc).1, (h.entry c b hc).2.1, ?_⟩
    show (update s.heap a n c).Good m
    rw [hlist c b hc]
    exact (h.entry c b hc).2.2

theorem Inv.notMem (h : Inv m s g) (ha : g.held a = some t) (b : ℕ) : a ∉ g.lists b := by
  intro hc
  rw [(h.entry a b hc).2.1] at ha
  cases ha

theorem held_update {o : Option Tid} (ho : o ≠ some u) (ha : g.held a ≠ some u)
    (c : Addr) : update g.held a o c = some u ↔ g.held c = some u := by
  by_cases hc : c = a
  · subst hc
    rw [update_self]
    exact ⟨fun h => absurd h ho, fun h => absurd h ha⟩
  · rw [update_of_ne hc]

/-- The snapshot and what is missed in it, after a write outside of the buckets. -/
theorem Missed.write (h : Missed m s g k head) {heap : Addr → Node} {held : Addr → Option Tid}
    {live : Addr → Bool} (hlist : ∀ c b, c ∈ g.lists b → heap c = s.heap c) :
    Missed m { s with heap := heap, live := live } { g with held := held } k head := by
  obtain ⟨l, hsnap, hmiss⟩ := h
  refine ⟨l, ⟨path_congr (fun c hc => ?_) hsnap.path, hsnap.suffix⟩, fun c hc => ?_⟩
  · exact congrArg Node.next (hlist c _ (hsnap.suffix.subset hc))
  · show ¬ (heap c).Matches k
    rw [hlist c _ (hsnap.suffix.subset hc)]
    exact hmiss c hc

/-- `Box::new` of a node for `k`. -/
theorem kept_alloc (h : Inv m s g) (hlive : s.live a = false)
    (hfree : ∀ c, g.held c ≠ some t)
    (hmiss : Missed m s g k head) (hnew : BlockLayout.new m k = .ok layout) :
    Kept m t s g (s.alloc a ⟨k.slotsOffset, k.slotStride, layout, head⟩,
      .link k head a layout) := by
  have hna : ∀ b, a ∉ g.lists b := by
    intro b hc
    rw [(h.entry a b hc).1] at hlive
    cases hlive
  have hnone : ∀ v, g.held a ≠ some v := by
    intro v hc
    rw [h.live a v hc] at hlive
    cases hlive
  obtain ⟨hinv, hlist⟩ := h.write hna ⟨k.slotsOffset, k.slotStride, layout, head⟩
  have hself : update s.heap a ⟨k.slotsOffset, k.slotStride, layout, head⟩ a
      = ⟨k.slotsOffset, k.slotStride, layout, head⟩ := update_self _ _ _
  refine ⟨{ g with held := update g.held a (some t) },
    { hinv with entry := fun c b hc => ?_, live := fun c v hc => ?_ },
    ⟨fun c => ?_, hmiss.write hlist, hnew, ?_, ?_⟩,
    fun u hu => ⟨fun _ => List.suffix_refl _, hlist, ?_, fun c hc => ?_⟩⟩
  · have hca : c ≠ a := by
      rintro rfl
      exact hna b hc
    obtain ⟨h1, h2, h3⟩ := hinv.entry c b hc
    exact ⟨(update_of_ne hca _ _).trans h1, (update_of_ne hca _ _).trans h2, h3⟩
  · show update s.live a true c = true
    by_cases hca : c = a
    · subst hca
      exact update_self _ _ _
    · rw [update_of_ne hca]
      exact h.live c v ((update_of_ne hca _ _).symm.trans hc)
  · by_cases hca : c = a
    · subst hca
      simp [Pc.node]
    · simp [update_of_ne hca, hfree c, Pc.node, Ne.symm hca]
  · show (update s.heap a _ a).Matches k
    rw [hself]
    exact ⟨rfl, rfl⟩
  · show (update s.heap a _ a).layout = layout
    rw [hself]
  · exact held_update (by simp [hu.symm]) (hnone u)
  · apply update_of_ne
    rintro rfl
    exact hnone u hc

/-- `(*new).next = head`. -/
theorem kept_link (h : Inv m s g)
    (hl : Local m t s g (.link k head new layout)) :
    Kept m t s g (s.setNext new head, .cas k head new layout) := by
  have hheld : g.held new = some t := (hl.held new).mpr rfl
  obtain ⟨hinv, hlist⟩ := h.write (h.notMem hheld) { s.heap new with next := head }
  obtain ⟨hmiss, hnew, hkey, hlayout⟩ := hl.here
  have hself : update s.heap new { s.heap new with next := head } new
      = { s.heap new with next := head } := update_self _ _ _
  refine ⟨g, hinv, ⟨hl.held, hmiss.write hlist, ⟨hnew, ?_, ?_⟩, ?_⟩,
    fun u hu => ⟨fun _ => List.suffix_refl _, hlist, fun _ => Iff.rfl, fun c hc => ?_⟩⟩
  · show (update s.heap new _ new).Matches k
    rwa [hself]
  · show (update s.heap new _ new).layout = layout
    rwa [hself]
  · show (update s.heap new _ new).next = head
    rw [hself]
  · apply update_of_ne
    rintro rfl
    exact not_mine hheld hu hc

/-- The exchange succeeds: the new node heads the bucket, and its key is new there. -/
theorem kept_publish (h : Inv m s g)
    (hl : Local m t s g (.cas k head new layout)) (hcas : s.bucket (bucketOf m k) = head) :
    Kept m t s g (ret { s with bucket := update s.bucket (bucketOf m k) (some new) } t k
      (.ok layout)) := by
  have hheld : g.held new = some t := (hl.held new).mpr rfl
  obtain ⟨⟨l, hsnap, hmiss⟩, ⟨hnew, hkey, hlayout⟩, hnext⟩ := hl.here
  obtain rfl : l = g.lists (bucketOf m k) := path_unique hsnap.path (hcas ▸ h.path _)
  have hne : ∀ c b, c ∈ g.lists b → c ≠ new := by
    rintro c b hc rfl
    exact h.notMem hheld b hc
  apply kept_ret ⟨update g.lists (bucketOf m k) (new :: g.lists (bucketOf m k)),
    update g.held new none⟩
  · refine ⟨fun b => ?_, fun b => ?_, fun a b ha => ?_, fun a v ha => ?_, h.trace⟩
    · by_cases hb : b = bucketOf m k
      · subst hb
        simp only [update_self]
        refine ⟨rfl, ?_⟩
        show LinkPath s.next (s.next new) _ _
        rw [hnext]
        exact hsnap.path
      · simp only [update_of_ne hb]
        exact h.path b
    · by_cases hb : b = bucketOf m k
      · subst hb
        simp only [update_self, List.map_cons, List.nodup_cons]
        refine ⟨fun hc => ?_, h.keys _⟩
        obtain ⟨a, ha, heq⟩ := List.mem_map.mp hc
        have heq' := Prod.ext_iff.mp heq
        exact hmiss a ha ⟨heq'.1.trans hkey.1, heq'.2.trans hkey.2⟩
      · simp only [update_of_ne hb]
        exact h.keys b
    · have hold : ∀ b, a ∈ g.lists b → s.live a = true ∧ update g.held new none a = none ∧
          (s.heap a).Good m := fun b ha =>
        ⟨(h.entry a b ha).1, (update_of_ne (hne a b ha) _ _).trans (h.entry a b ha).2.1,
          (h.entry a b ha).2.2⟩
      by_cases hb : b = bucketOf m k
      · subst hb
        simp only [update_self, List.mem_cons] at ha
        rcases ha with rfl | ha
        · exact ⟨h.live a t hheld, update_self _ _ _, k, hkey, hlayout ▸ hnew⟩
        · exact hold _ ha
      · simp only [update_of_ne hb] at ha
        exact hold b ha
    · by_cases hca : a = new
      · subst hca
        exact h.live a t hheld
      · exact h.live a v ((update_of_ne hca _ _).symm.trans ha)
  · intro a
    by_cases ha : a = new
    · subst ha
      simp
    · simp only [update_of_ne ha]
      exact fun hc => ha (Option.some.inj ((hl.held a).mp hc)).symm
  · intro u hu
    refine ⟨fun b => ?_, fun _ _ _ => rfl, held_update (by simp) (by simp [hheld, hu.symm]),
      fun _ _ => rfl⟩
    by_cases hb : b = bucketOf m k
    · subst hb
      simp only [update_self]
      exact List.suffix_cons _ _
    · simp only [update_of_ne hb]
      exact List.suffix_refl _
  · exact hnew.symm

/-- Another thread has entered the key: the node is dropped. -/
theorem kept_drop (h : Inv m s g) (hheld : ∀ a, g.held a = some t ↔ some new = some a)
    (ha : a ∈ g.lists b) (hkey : (s.heap a).Matches k) :
    Kept m t s g (ret (s.free new) t k (.ok (s.heap a).layout)) := by
  have hmine : g.held new = some t := (hheld new).mpr rfl
  apply kept_ret { g with held := update g.held new none }
  · refine { h with entry := fun c b hc => ?_, live := fun c v hc => ?_ }
    · have hcn : c ≠ new := by
        rintro rfl
        exact h.notMem hmine b hc
      obtain ⟨h1, h2, h3⟩ := h.entry c b hc
      exact ⟨(update_of_ne hcn _ _).trans h1, (update_of_ne hcn _ _).trans h2, h3⟩
    · have hcn : c ≠ new := by
        rintro rfl
        simp at hc
      show update s.live new false c = true
      rw [update_of_ne hcn]
      exact h.live c v ((update_of_ne hcn _ _).symm.trans hc)
  · intro c
    by_cases hc : c = new
    · subst hc
      simp
    · simp only [update_of_ne hc]
      exact fun hc' => hc (Option.some.inj ((hheld c).mp hc')).symm
  · intro u hu
    exact ⟨fun _ => List.suffix_refl _, fun _ _ _ => rfl,
      held_update (by simp) (by simp [hmine, hu.symm]), fun _ _ => rfl⟩
  · exact ((h.entry a b ha).2.2.new_eq hkey).symm

/-- A path that is not yet at a suffix of itself goes on. -/
theorem path_ahead {nxt : Addr → Option Addr} {p q : Option Addr} {rest old : List Addr}
    (hp : LinkPath nxt p rest none) (hq : LinkPath nxt q old none) (hsuf : old <:+ rest)
    (hne : p ≠ q) : ∃ a rest', p = some a ∧ rest = a :: rest' ∧ LinkPath nxt (nxt a) rest' none ∧
      old <:+ rest' := by
  cases rest with
  | nil =>
    obtain rfl := List.suffix_nil.mp hsuf
    exact absurd (Eq.trans hp hq.symm) hne
  | cons a rest' =>
    obtain ⟨rfl, htail⟩ := hp
    rcases List.suffix_cons_iff.mp hsuf with rfl | hsuf
    · exact absurd hq.1.symm hne
    · exact ⟨a, rest', rfl, rfl, htail, hsuf⟩

/-- **Every step keeps the outline.** -/
theorem step_kept (h : Inv m s g) (hl : Local m t s g pc) {act : Act}
    {r : Shared × Pc} (hs : step m t act s pc = some r) : Kept m t s g r := by
  apply Post.of hs
  have hfree : pc.node = none → ∀ a, g.held a ≠ some t := by
    intro hnone a ha
    rw [(hl.held a).mp ha] at hnone
    cases hnone
  have hat := hl.here
  cases act with
  | call k =>
    cases pc with
    | idle => exact kept_read h ⟨hl.held, trivial⟩
    | _ => trivial
  | alloc a =>
    cases pc with
    | box k head layout =>
      simp only [step]
      split
      · trivial
      rename_i hlive
      exact kept_alloc h (Bool.eq_false_iff.mpr hlive) (hfree rfl) hat.1 hat.2
    | _ => trivial
  | run =>
    cases pc with
    | idle | fault | box => trivial
    | load k =>
      exact kept_read h ⟨hl.held, [], g.lists (bucketOf m k), ⟨h.path _, List.suffix_refl _⟩,
        h.path _, nofun⟩
    | scan k head cached =>
      obtain ⟨seen, rest, hsnap, hpath, hmiss⟩ := hat
      cases cached with
      | none =>
        obtain rfl : rest = [] := by simpa using (path_head hpath).symm
        rw [List.append_nil] at hsnap
        exact kept_read h ⟨hl.held, seen, hsnap, hmiss⟩
      | some a =>
        cases rest with
        | nil => cases hpath
        | cons b rest =>
          obtain ⟨hab, htail⟩ := hpath
          cases hab
          simp only [step]
          split
          · rename_i hkey
            have hmem : a ∈ g.lists (bucketOf m k) := hsnap.suffix.subset (by simp)
            exact kept_ret g h (hfree rfl) (fun u _ => Rely.refl u s g)
              ((h.entry a _ hmem).2.2.new_eq hkey).symm
          · rename_i hkey
            refine kept_read h ⟨hl.held, seen ++ [a], rest, by simpa using hsnap, htail, ?_⟩
            intro c hc
            rcases List.mem_append.mp hc with hc | hc
            · exact hmiss c hc
            · rw [List.mem_singleton] at hc
              subst hc
              exact hkey
    | create k head =>
      simp only [step]
      split
      · rename_i e hnew
        exact kept_ret g h (hfree rfl) (fun u _ => Rely.refl u s g) hnew.symm
      · rename_i layout hnew
        exact kept_read h ⟨hl.held, hat, hnew⟩
    | link k head new layout => exact kept_link h hl
    | cas k head new layout =>
      simp only [step]
      split
      · rename_i hcas
        exact kept_publish h hl hcas
      · obtain ⟨⟨l, hsnap, hmiss⟩, hprep, _⟩ := hat
        exact kept_read h ⟨hl.held, hprep, l, [], g.lists (bucketOf m k), hsnap, hmiss,
          ⟨h.path _, List.suffix_refl _⟩, h.path _, hsnap.suffix, nofun⟩
    | rescan k head current cached new layout =>
      obtain ⟨hprep, old, seen, rest, hold, hmold, hsnap, hpath, hsuf, hmiss⟩ := hat
      simp only [step]
      split
      · -- all of the new entries have been looked at
        rename_i heq
        subst heq
        obtain rfl := path_unique hpath hold.path
        refine kept_read h ⟨hl.held, ⟨seen ++ rest, hsnap, ?_⟩, hprep⟩
        intro c hc
        rcases List.mem_append.mp hc with hc | hc
        · exact hmiss c hc
        · exact hmold c hc
      · rename_i hne
        obtain ⟨a, rest', rfl, rfl, htail, hsuf'⟩ := path_ahead hpath hold.path hsuf hne
        simp only
        split
        · rename_i hkey
          exact kept_drop h hl.held (hsnap.suffix.subset (by simp)) hkey
        · rename_i hkey
          refine kept_read h ⟨hl.held, hprep, old, seen ++ [a], rest', hold, hmold,
            by simpa using hsnap, htail, hsuf', ?_⟩
          intro c hc
          rcases List.mem_append.mp hc with hc | hc
          · exact hmiss c hc
          · rw [List.mem_singleton] at hc
            subst hc
            exact hkey

theorem outline {c : Conf} (hc : (system m).Reachable c) :
    ∃ g, Inv m c.sh g ∧ ∀ t, Local m t c.sh g (c.pc t) := by
  refine System.rely_guarantee (system m) (Inv m) (Local m) Rely ?_ ?_ ?_ hc
  · refine ⟨⟨fun _ => [], fun _ => none⟩, ⟨fun _ => rfl, ?_, ?_, ?_, ?_⟩,
      fun t => ⟨fun a => ?_, trivial⟩⟩
    · simp
    · simp
    · simp
    · intro e he
      cases he
    · simp [system, System.ofStep, Pc.node]
  · rintro t s g pc s' pc' hG hl ⟨act, hs⟩
    exact step_kept hG hl hs
  · intro u s g s' g' pc _ _ hR hl
    exact local_stable hR hl

/-! ## The lists of the buckets -/

/-- The entries of bucket `b`, from its head on. -/
def Lists (s : Shared) (b : ℕ) (l : List Addr) : Prop := LinkPath s.next (s.bucket b) l none

/-- Every move only adds entries at the head of a bucket. -/
theorem move_grows {c c' : Conf} (hc : (system m).Reachable c) (hm : (system m).Moves t c c')
    (hl : Lists c.sh b l) :
    ∃ l', Lists c'.sh b l' ∧ l <:+ l' ∧ ∀ a ∈ l, c'.sh.heap a = c.sh.heap a := by
  obtain ⟨g, hG, hlocal⟩ := outline hc
  obtain ⟨s', pc', ⟨act, hs⟩, rfl⟩ := hm
  obtain ⟨g', hG', _, hR⟩ := step_kept hG (hlocal t) hs
  obtain rfl := path_unique hl (hG.path b)
  have hrely := hR (t + 1) (Nat.succ_ne_self t)
  exact ⟨g'.lists b, hG'.path b, hrely.grows b, fun a ha => hrely.same a b ha⟩

theorem along_grows {c c' : Conf} (hc : (system m).Reachable c) {ts : List Tid}
    (h : (system m).Along c ts c') (hl : Lists c.sh b l) :
    ∃ l', Lists c'.sh b l' ∧ l <:+ l' ∧ ∀ a ∈ l, c'.sh.heap a = c.sh.heap a := by
  induction h with
  | nil => exact ⟨l, hl, List.suffix_refl _, fun _ _ => rfl⟩
  | snoc hal hm ih =>
    obtain ⟨l', hl', hsuf, hsame⟩ := ih
    obtain ⟨l'', hl'', hsuf', hsame'⟩ := move_grows (hal.reachable hc) hm hl'
    exact ⟨l'', hl'', hsuf.trans hsuf', fun a ha =>
      (hsame' a (hsuf.subset ha)).trans (hsame a ha)⟩

/-! ## Termination -/

/-- The kind of the call. -/
def Pc.kind : Pc → Option Kind
  | .idle | .fault => none
  | .load k | .scan k _ _ | .create k _ | .box k _ _ | .link k _ _ _ | .cas k _ _ _
  | .rescan k _ _ _ _ _ => some k

/-- An entry for `k` is on the way from `p`. -/
def Keyed (s : Shared) (k : Kind) (p : Option Addr) : Prop :=
  ∃ l, LinkPath s.next p l none ∧ ∃ a ∈ l, (s.heap a).Matches k

/-- The key of `k` has been entered. -/
def Present (m : Target) (s : Shared) (k : Kind) : Prop := Keyed s k (s.bucket (bucketOf m k))

open Classical in
/-- Once more around the loop, or to the entry that is on the way. -/
noncomputable def stage (s : Shared) (k : Kind) (p : Option Addr) : ℕ :=
  if Keyed s k p then 2 else 5

theorem stage_congr {p p' : Option Addr} (h : Keyed s' k p' ↔ Keyed s k p) :
    stage s' k p' = stage s k p := by
  unfold stage
  rw [propext h]

/-- What a call has still to do once its key has been entered: a failed exchange is
followed by a loop that finds the entry. -/
noncomputable def rank (s : Shared) : Pc → Rank
  | .idle | .fault => .mk 0 0 0 0
  | .load _ => .mk 9 0 0 0
  | .scan _ _ cached => .mk 8 (pathLen s.next cached) 0 0
  | .create _ _ => .mk 7 0 0 0
  | .box _ _ _ => .mk 6 0 0 0
  | .link _ _ _ _ => .mk 4 0 0 0
  | .cas _ _ _ _ => .mk 3 0 0 0
  | .rescan k _ _ cached _ _ =>
    .mk (stage s k cached) (pathLen s.next cached) 0 0

theorem keyed_iff (h : LinkPath s.next p l none) :
    Keyed s k p ↔ ∃ a ∈ l, (s.heap a).Matches k := by
  constructor
  · rintro ⟨l', h', hex⟩
    rwa [path_unique h h']
  · intro hex
    exact ⟨l, h, hex⟩

/-- The moves of other threads do not change what is left to do. -/
theorem rank_stable (hR : Rely u s g s' g') (h : Local m u s g pc) :
    rank s' pc = rank s pc := by
  have hlen : ∀ {b : ℕ} {p : Option Addr} {l : List Addr}, (∀ a ∈ l, a ∈ g.lists b) →
      LinkPath s.next p l none → pathLen s'.next p = pathLen s.next p := by
    intro b p l hmem hpath
    rw [pathLen_eq hpath, pathLen_eq (hR.path hmem hpath)]
  have hat := h.here
  cases pc with
  | scan k head cached =>
    obtain ⟨seen, rest, hsnap, hpath, _⟩ := hat
    simp only [rank, hlen (fun a ha => hsnap.suffix.subset (by simp [ha])) hpath]
  | rescan k head current cached new layout =>
    obtain ⟨_, old, seen, rest, _, _, hsnap, hpath, _, _⟩ := hat
    have hmem : ∀ a ∈ rest, a ∈ g.lists (bucketOf m k) := fun a ha =>
      hsnap.suffix.subset (by simp [ha])
    have hkey : Keyed s' k cached ↔ Keyed s k cached := by
      rw [keyed_iff hpath, keyed_iff (hR.path hmem hpath)]
      constructor <;> rintro ⟨a, ha, hmatch⟩
      · exact ⟨a, ha, by rwa [hR.same a _ (hmem a ha)] at hmatch⟩
      · exact ⟨a, ha, by rwa [hR.same a _ (hmem a ha)]⟩
    simp only [rank, hlen hmem hpath, stage_congr hkey]
  | _ => rfl

/-- **Every step of a call whose key has been entered brings it nearer to its end.** -/
theorem step_lowers (hl : Local m t s g pc)
    (hk : pc.kind = some k) (hpresent : Present m s k) {act : Act} {r : Shared × Pc}
    (hs : step m t act s pc = some r) :
    r.2 = .idle ∨ r.2.kind = some k ∧ rank r.1 r.2 < rank s pc := by
  apply Post.of hs
  have hat := hl.here
  cases act with
  | call k' =>
    cases pc with
    | idle => cases hk
    | _ => trivial
  | alloc a =>
    cases pc with
    | box k' head layout =>
      simp only [step]
      split
      · trivial
      refine Or.inr ⟨hk, ?_⟩
      simp only [rank, Rank.lt_iff]
      omega
    | _ => trivial
  | run =>
    cases pc with
    | idle | fault | box => trivial
    | scan k' head cached =>
      obtain ⟨seen, rest, hsnap, hpath, hmiss⟩ := hat
      cases cached with
      | none =>
        refine Or.inr ⟨hk, ?_⟩
        simp only [rank, Rank.lt_iff]
        omega
      | some a =>
        simp only [step]
        split
        · exact Or.inl rfl
        · refine Or.inr ⟨hk, ?_⟩
          have hlt := pathLen_next hpath
          simp only [rank, Rank.lt_iff]
          exact .inr ⟨Nat.le_refl _, .inl hlt⟩
    | create k' head =>
      simp only [step]
      split
      · exact Or.inl rfl
      · refine Or.inr ⟨hk, ?_⟩
        simp only [rank, Rank.lt_iff]
        omega
    | load | link =>
      refine Or.inr ⟨hk, ?_⟩
      simp only [rank, Rank.lt_iff]
      omega
    | cas k' head new layout =>
      obtain rfl := Option.some.inj hk
      simp only [step]
      split
      · exact Or.inl rfl
      · refine Or.inr ⟨rfl, ?_⟩
        have hstage : stage s k' (s.bucket (bucketOf m k')) = 2 := if_pos hpresent
        simp only [rank, hstage, Rank.lt_iff]
        omega
    | rescan k' head current cached new layout =>
      obtain rfl := Option.some.inj hk
      obtain ⟨_, old, seen, rest, hold, hmold, _, hpath, hsuf, _⟩ := hat
      simp only [step]
      split
      · rename_i heq
        subst heq
        have hnot : ¬ Keyed s k' cached := by
          rw [keyed_iff hold.path]
          rintro ⟨a, ha, hmatch⟩
          exact hmold a ha hmatch
        refine Or.inr ⟨rfl, ?_⟩
        have hstage : stage s k' cached = 5 := if_neg hnot
        simp only [rank, hstage, Rank.lt_iff]
        omega
      · rename_i hne
        obtain ⟨a, rest', rfl, rfl, htail, _⟩ := path_ahead hpath hold.path hsuf hne
        simp only
        split
        · exact Or.inl rfl
        · rename_i hkey
          have hiff : Keyed s k' (s.heap a).next ↔ Keyed s k' (some a) := by
            rw [keyed_iff hpath]
            refine (keyed_iff htail).trans ?_
            simp [hkey]
          refine Or.inr ⟨rfl, ?_⟩
          have hlt := pathLen_next hpath
          simp only [rank, stage_congr hiff, Rank.lt_iff]
          exact .inr ⟨Nat.le_refl _, .inl hlt⟩

/-- A call that has begun can always go on, if only by allocating. -/
theorem step_enabled (h : pc ≠ .idle) (hfault : pc ≠ .fault) :
    (∃ k head layout, pc = .box k head layout) ∨ ∃ r, step m t .run s pc = some r := by
  cases pc with
  | idle => exact absurd rfl h
  | fault => exact absurd rfl hfault
  | box k head layout => exact .inl ⟨k, head, layout, rfl⟩
  | load | link => exact .inr ⟨_, rfl⟩
  | scan k head cached =>
    right
    cases cached with
    | none => exact ⟨_, rfl⟩
    | some a =>
      simp only [step]
      split <;> exact ⟨_, rfl⟩
  | create k head =>
    right
    simp only [step]
    split <;> exact ⟨_, rfl⟩
  | cas k head new layout =>
    right
    simp only [step]
    split <;> exact ⟨_, rfl⟩
  | rescan k head current cached new layout =>
    right
    simp only [step]
    split
    · exact ⟨_, rfl⟩
    · split
      · exact ⟨_, rfl⟩
      · split <;> exact ⟨_, rfl⟩

/-- The calls of `t` in a run without end, from a configuration in which the key of the
call is present. -/
theorem call_ends {x : ℕ → Conf} {who : ℕ → Tid} (hx0 : (system m).Reachable (x 0))
    (hx : ∀ i, (system m).Moves (who i) (x i) (x (i + 1))) (hinf : ∀ n, ∃ i, n ≤ i ∧ who i = t)
    {n : ℕ} (hk : ((x n).pc t).kind = some k) (hpresent : Present m (x n).sh k) :
    ∃ i, (x i).pc t = .idle := by
  have hreach : ∀ i, (system m).Reachable (x i) := by
    intro i
    induction i with
    | zero => exact hx0
    | succ i ih => exact ih.step (hx i)
  have hkeep : ∀ i, Present m (x i).sh k → Present m (x (i + 1)).sh k := by
    rintro i ⟨l, hl, a, ha, hmatch⟩
    obtain ⟨l', hl', hsuf, hsame⟩ := move_grows (hreach i) (hx i) hl
    exact ⟨l', hl', a, hsuf.subset ha, by rwa [hsame a ha]⟩
  -- by induction on the rank: up to the next step of `t` it stays, and that step lowers it
  induction hr : rank (x n).sh ((x n).pc t) using WellFoundedLT.induction generalizing n with
  | ind r ih =>
    have mine : ∀ n, who n = t → ((x n).pc t).kind = some k → Present m (x n).sh k →
        rank (x n).sh ((x n).pc t) = r → ∃ i, (x i).pc t = .idle := by
      intro n hj hk hpresent hr
      obtain ⟨g, hG, hlocal⟩ := outline (hreach n)
      obtain ⟨s', pc', ⟨act, hs⟩, hnext⟩ := hx n
      rw [hj] at hs hnext
      have hpc : (x (n + 1)).pc t = pc' := by simp [hnext]
      have hsh : (x (n + 1)).sh = s' := by rw [hnext]
      rcases step_lowers (hlocal t) hk hpresent hs with hidle | ⟨hkind, hlt⟩
      · exact ⟨n + 1, hpc.trans hidle⟩
      · refine ih (rank (x (n + 1)).sh ((x (n + 1)).pc t)) ?_ ?_ (hkeep n hpresent) rfl
        · rwa [hpc, hsh, ← hr]
        · rwa [hpc]
    obtain ⟨j, hnj, hj⟩ := hinf n
    obtain ⟨d, rfl⟩ := Nat.exists_eq_add_of_le hnj
    induction d generalizing n with
    | zero => exact mine n hj hk hpresent hr
    | succ d ihd =>
      by_cases hmine : who n = t
      · exact mine n hmine hk hpresent hr
      · obtain ⟨g, hG, hlocal⟩ := outline (hreach n)
        obtain ⟨s', pc', ⟨act, hs⟩, hnext⟩ := hx n
        obtain ⟨g', _, _, hR⟩ := step_kept hG (hlocal (who n)) hs
        have hpc : (x (n + 1)).pc t = (x n).pc t := by
          rw [hnext]
          exact update_of_ne (Ne.symm hmine) _ _
        have hsh : (x (n + 1)).sh = s' := by rw [hnext]
        apply ihd (n := n + 1)
        · rwa [hpc]
        · exact hkeep n hpresent
        · rwa [hpc, hsh, rank_stable (hR t (Ne.symm hmine)) (hlocal t)]
        · omega
        · rw [← hj]
          congr 1
          omega

/-! ## Transparency -/

/-- **The cache is transparent.**  In every configuration of every run, each finished
call has returned the layout that `BlockLayout::new` computes for its own types, or has
panicked with the same message.  A bucket has one entry for a key, and what is in it
stays, with new entries in front.  A call returns with its successful exchange; and once
its key has been entered by anyone, it returns in every run in which it keeps moving,
which it can always do. -/
theorem cache_transparent {c : Conf} (hc : (system m).Reachable c) :
    (∀ e ∈ c.sh.trace, e.2.2 = BlockLayout.new m e.2.1) ∧
    (∀ b, ∃ l, Lists c.sh b l ∧ (l.map (key c.sh)).Nodup ∧
      ∀ ts c', (system m).Along c ts c' →
        ∃ l', Lists c'.sh b l' ∧ l <:+ l' ∧ ∀ a ∈ l, c'.sh.heap a = c.sh.heap a) ∧
    (∀ t, c.pc t ≠ .idle → c.pc t ≠ .fault ∧
      ((∃ k head layout, c.pc t = .box k head layout) ∨
        ∃ r, step m t .run c.sh (c.pc t) = some r)) ∧
    (∀ t k head new layout act r, c.pc t = .cas k head new layout →
      c.sh.bucket (bucketOf m k) = head → step m t act c.sh (c.pc t) = some r → r.2 = .idle) ∧
    (∀ t k, (c.pc t).kind = some k → Present m c.sh k → ∀ (x : ℕ → Conf) (who : ℕ → Tid),
      x 0 = c → (∀ i, (system m).Moves (who i) (x i) (x (i + 1))) →
      (∀ n, ∃ i, n ≤ i ∧ who i = t) → ∃ i, (x i).pc t = .idle) := by
  obtain ⟨g, hG, hlocal⟩ := outline hc
  refine ⟨hG.trace, fun b => ?_, fun t hbusy => ?_, ?_, ?_⟩
  · exact ⟨g.lists b, hG.path b, hG.keys b, fun ts c' hal => along_grows hc hal (hG.path b)⟩
  · have hfault : c.pc t ≠ .fault := by
      intro hpc
      have hat := (hlocal t).here
      rw [hpc] at hat
      exact hat
    exact ⟨hfault, step_enabled hbusy hfault⟩
  · intro t k head new layout act r hpc hbucket hs
    rw [hpc] at hs
    cases act with
    | run =>
      simp only [step, if_pos hbucket] at hs
      obtain rfl := Option.some.inj hs
      rfl
    | _ => cases hs
  · intro t k hk hpresent x who hx0 hx hinf
    subst hx0
    exact call_ends hc hx hinf hk hpresent

/-- Two kinds with one key, the second with a header of smaller alignment: the second
exchange fails and the entry of the first call is found. -/
theorem cache_transparent_shared_key : ∃ (m : Target) (c : Conf), (system m).Reachable c ∧
    (∀ e ∈ c.sh.trace, e.2.2 = BlockLayout.new m e.2.1) ∧
    c.sh.trace.map (fun e => (e.2.1.header.align, e.2.2))
      = [(32, .ok ⟨64, 64, 32⟩), (16, .ok ⟨64, 64, 32⟩)] ∧
    Lists c.sh 63 [7] := by
  obtain ⟨c, hruns, htrace, hlist⟩ : ∃ c, System.runs
      (step ⟨64, 6, Nat.le_of_ble_eq_true rfl⟩)
      ([(0, .call ⟨⟨32, 32, ⟨5, rfl⟩, ⟨1, rfl⟩⟩, ⟨1, 1, ⟨0, rfl⟩, ⟨1, rfl⟩⟩, Nat.succ_pos 31⟩),
        (1, .call ⟨⟨32, 16, ⟨4, rfl⟩, ⟨2, rfl⟩⟩, ⟨1, 1, ⟨0, rfl⟩, ⟨1, rfl⟩⟩, Nat.succ_pos 31⟩),
        (0, .run), (1, .run), (0, .run), (0, .run), (1, .run), (1, .run), (0, .alloc 7),
        (1, .alloc 8), (0, .run), (0, .run), (1, .run), (1, .run), (1, .run)])
      (system ⟨64, 6, Nat.le_of_ble_eq_true rfl⟩).start = some c ∧
      c.sh.trace.map (fun e => (e.2.1.header.align, e.2.2))
        = [(32, .ok ⟨64, 64, 32⟩), (16, .ok ⟨64, 64, 32⟩)] ∧
      Lists c.sh 63 [7] := ⟨_, rfl, rfl, rfl, rfl⟩
  have hc := System.runs_reachable .start hruns
  exact ⟨_, c, hc, (cache_transparent hc).1, htrace, hlist⟩

end Block.Cache
