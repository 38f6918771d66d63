/-
# Completing a batch by segments and by items

A `UBQIter` adds the slots it has read to `consumed` once per contiguous segment of
a block; with the feature `probe_item_completion` it does so after every slot.
`iterStep` is the iterator with either policy: with the default it is the iterator
of the machine (`iterStep_default`).

Both run alone over a reservation (`Reserved`): any chain of blocks, any start, any
settled pattern of written and skipped slots, and counters that leave room for the
slots of the reservation.  `segment_agree` follows both through one segment: the
iterator by items has put into the counter what the other one still has pending.
-/
import Ubq.Exec
import Ubq.Mpmc.Machine

namespace Mpmc

open Function

/-! ## The iterator with either policy -/

/-- What a step of the iterator does to a block. -/
inductive Access
  | slot (a : Addr) (index : ℕ)
  | next (a : Addr)
  /-- `consumed.fetch_add`, and whether it completes the block. -/
  | consume (a : Addr) (quantity : ℕ) (last : Bool)
  | reset (a : Addr)
  /-- The attempt to put a block into the pool. -/
  | pool (a : Addr) (stored : Bool)
  | free (a : Addr)
  deriving DecidableEq

namespace Access

/-- The access needs the block to be live. -/
def touches (b : Addr) : Access → Bool
  | .slot a _ | .next a | .consume a _ _ => a = b
  | _ => false

/-- The access that completes the block. -/
def completes : Access → Bool
  | .consume _ _ last => last
  | _ => false

/-- The block goes to the pool or back to the allocator. -/
def recycles : Access → Bool
  | .pool _ stored => stored
  | .free _ => true
  | _ => false

/-- No block is accessed after the update that completes it. -/
def Sealed : List Access → Prop
  | [] => True
  | .consume a _ true :: rest => (∀ e ∈ rest, e.touches a = false) ∧ Sealed rest
  | _ :: rest => Sealed rest

end Access

section Code

variable {T : Type*}

/-- The iterator after one slot. -/
def Iter.advanced (it : Iter T) : Iter T :=
  { it with index := it.index + 1, len := it.len - 1, pending := it.pending + 1 }

/-- A slot has been read; `perItem` is `probe_item_completion`. -/
def slotRead (cfg : Config) (perItem : Bool) (s : Shared T) (it : Iter T) (a : Addr) :
    Shared T × Pc T :=
  if it.index + 1 = cfg.bl then (s, .iNext it.advanced)
  else if perItem = true ∨ it.len - 1 = 0 then (s, .iConsume it.advanced a)
  else (s, .iRead it.advanced)

/-- One step of the iterator. -/
def iterStep (cfg : Config) (perItem : Bool) (t : Tid) (r : Shared T × Pc T) :
    Option (Shared T × Pc T) :=
  match r with
  | (s, .iRead it) => deref s it.block fun a =>
    let x := (s.heap a).slots it.index
    let pos := tokenOf s.linked a * cfg.bl + it.index
    match x.state, x.value with
    | .zero, _ => (s, .iRead it)
    | .skip, _ => slotRead cfg perItem { s with log := s.log.deliver t pos none } it a
    | .written, none => (s, .fault)
    | .written, some v =>
      slotRead cfg perItem
        { s.modBlock a (·.setSlot it.index { x with read := true }) with
          log := s.log.deliver t pos (some v) }
        { it with out := it.out ++ [v] } a
  | (s, pc) => step cfg t .run s pc

/-- What a step of the iterator accesses. -/
def accesses (cfg : Config) (r : Shared T × Pc T) : List Access :=
  match r.2 with
  | .iRead it => it.block.toList.map (.slot · it.index)
  | .iNext it => it.block.toList.map .next
  | .iConsume it a =>
    [.consume a it.pending (decide ((r.1.heap a).consumed + it.pending = cfg.bl))]
  | .iReset _ a => [.reset a]
  | .iPool _ a => [.pool a r.1.pool.isNone]
  | .iFree _ a => [.free a]
  | _ => []

/-- The iterator with either policy, run alone. -/
def Iterates (cfg : Config) (perItem : Bool) (t : Tid) :
    Shared T × Pc T → List Access → Shared T × Pc T → Prop :=
  Exec (iterStep cfg perItem t) (accesses cfg)

/-- A slot that `Slot::read` does not wait for. -/
def Slot.Settled (x : Slot T) : Prop :=
  x.state = .skip ∨ x.state = .written ∧ x.value.isSome

/-- A reservation of `len` slots from slot `index` of the first of the blocks `l` on:
its slots are settled, the blocks are distinct and linked as far as it reaches, and
their counters leave room for its slots. -/
def Reserved (cfg : Config) (s : Shared T) : List Addr → ℕ → ℕ → Prop
  | [], _, _ => False
  | a :: l, index, len =>
    index < cfg.bl ∧ 0 < len ∧
    (s.heap a).consumed + min len (cfg.bl - index) ≤ cfg.bl ∧
    (∀ k, k < min len (cfg.bl - index) → ((s.heap a).slots (index + k)).Settled) ∧
    (cfg.bl - index < len → (s.heap a).next = l.head? ∧ a ∉ l ∧
      Reserved cfg s l 0 (len - (cfg.bl - index)))

/-- The default policy is the machine's iterator. -/
theorem iterStep_default (cfg : Config) (t : Tid) (s : Shared T) (pc : Pc T) :
    iterStep cfg false t (s, pc) = step cfg t .run s pc := by
  have hread : ∀ (s' : Shared T) (it : Iter T) (a : Addr),
      slotRead cfg false s' it a = iterRead cfg s' it a := by
    intro s' it a
    simp only [slotRead, iterRead, Iter.advanced, Bool.false_eq_true, false_or]
  cases pc with
  | iRead it =>
    cases hb : it.block with
    | none => simp only [iterStep, step, stepWith, deref, hb]
    | some a =>
      cases hst : ((s.heap a).slots it.index).state <;>
      cases hv : ((s.heap a).slots it.index).value <;>
        simp only [iterStep, step, stepWith, deref, hb, hst, hv, hread]
  | _ => rfl

end Code

variable {T : Type*} {cfg : Config} {t : Tid} {s s' : Shared T} {it : Iter T} {a : Addr}
variable {l : List Addr}

/-! ## Reading and counting -/

/-- `consumed.fetch_add`. -/
def Shared.count (s : Shared T) (a : Addr) (n : ℕ) : Shared T := s.modBlock a (·.addConsumed n)

theorem modBlock_modBlock (s : Shared T) (a : Addr) (f g : Block T → Block T) :
    (s.modBlock a f).modBlock a g = s.modBlock a fun b => g (f b) := by
  unfold Shared.modBlock
  simp only [update_self, update_idem]

theorem count_count (s : Shared T) (a : Addr) (m n : ℕ) :
    (s.count a m).count a n = s.count a (m + n) := by
  unfold Shared.count
  rw [modBlock_modBlock]
  simp only [Block.addConsumed, Nat.add_assoc]

theorem count_zero (s : Shared T) (a : Addr) : s.count a 0 = s := by
  have hheap : update s.heap a ((s.heap a).addConsumed 0) = s.heap :=
    update_eq_self a s.heap
  show { s with heap := update s.heap a ((s.heap a).addConsumed 0) } = s
  rw [hheap]

@[simp] theorem count_heap_self (s : Shared T) (a : Addr) (n : ℕ) :
    (s.count a n).heap a = (s.heap a).addConsumed n :=
  update_self _ _ _

/-- `Slot::read` of a settled slot: the memory and the iterator behind it. -/
def fetch (cfg : Config) (t : Tid) (s : Shared T) (it : Iter T) (a : Addr) : Shared T × Iter T :=
  let x := (s.heap a).slots it.index
  let pos := tokenOf s.linked a * cfg.bl + it.index
  match x.state, x.value with
  | .written, some v =>
    ({ s.modBlock a (·.setSlot it.index { x with read := true }) with
        log := s.log.deliver t pos (some v) }, { it with out := it.out ++ [v] })
  | _, _ => ({ s with log := s.log.deliver t pos none }, it)

theorem iterStep_read (cfg : Config) (t : Tid) (perItem : Bool) (s : Shared T) (it : Iter T)
    (hb : it.block = some a)
    (hx : ((s.heap a).slots it.index).Settled) :
    iterStep cfg perItem t (s, .iRead it) =
      some (slotRead cfg perItem (fetch cfg t s it a).1 (fetch cfg t s it a).2 a) := by
  rcases hx with hx | ⟨hx, hv⟩
  · simp only [iterStep, deref, hb, fetch, hx]
  · obtain ⟨v, hv⟩ := Option.isSome_iff_exists.mp hv
    simp only [iterStep, deref, hb, fetch, hx, hv]

/-- Reading a slot and counting commute. -/
theorem fetch_count (n : ℕ) :
    fetch cfg t (s.count a n) it a =
      ((fetch cfg t s it a).1.count a n, (fetch cfg t s it a).2) := by
  have hslots : ((s.count a n).heap a).slots = (s.heap a).slots := by
    rw [count_heap_self]
    rfl
  unfold fetch
  simp only [hslots]
  split
  · refine Prod.ext ?_ rfl
    unfold Shared.count Shared.modBlock
    simp only [update_self, update_idem]
    rfl
  · rfl

/-- Reading a slot does not look at what is pending. -/
theorem fetch_pending (n : ℕ) :
    fetch cfg t s { it with pending := n } a =
      ((fetch cfg t s it a).1, { (fetch cfg t s it a).2 with pending := n }) := by
  unfold fetch
  dsimp only
  split <;> rfl

/-- All a segment changes in memory before its update are the marks of its slots. -/
structure OnlyReads (a : Addr) (s s' : Shared T) : Prop where
  others : ∀ b, b ≠ a → s'.heap b = s.heap b
  consumed : (s'.heap a).consumed = (s.heap a).consumed
  next : (s'.heap a).next = (s.heap a).next

theorem OnlyReads.trans {s'' : Shared T} (h : OnlyReads a s s') (h' : OnlyReads a s' s'') :
    OnlyReads a s s'' where
  others b hb := (h'.others b hb).trans (h.others b hb)
  consumed := h'.consumed.trans h.consumed
  next := h'.next.trans h.next

theorem fetch_onlyReads (cfg : Config) (t : Tid) (s : Shared T) (it : Iter T) (a : Addr) :
    OnlyReads a s (fetch cfg t s it a).1 := by
  unfold fetch
  dsimp only
  split
  · refine ⟨fun b hb => update_of_ne hb _ _, ?_, ?_⟩
    · show (update s.heap a _ a).consumed = _
      rw [update_self]
      rfl
    · show (update s.heap a _ a).next = _
      rw [update_self]
      rfl
  · exact ⟨fun _ _ => rfl, rfl, rfl⟩

/-- Reading slot `i` settles nothing else and unsettles nothing. -/
theorem fetch_settled {i : ℕ} (h : ((s.heap a).slots i).Settled) :
    (((fetch cfg t s it a).1.heap a).slots i).Settled := by
  unfold fetch
  dsimp only
  split
  · show ((update s.heap a _ a).slots i).Settled
    rw [update_self]
    show (update (s.heap a).slots it.index _ i).Settled
    by_cases hi : i = it.index
    · subst hi
      rwa [update_self]
    · rwa [update_of_ne hi]
  · exact h

/-- Reading moves no field of the iterator but what it has yielded. -/
theorem fetch_iter (cfg : Config) (t : Tid) (s : Shared T) (it : Iter T) (a : Addr) :
    ∃ out, (fetch cfg t s it a).2 = { it with out := out } := by
  unfold fetch
  dsimp only
  split
  · exact ⟨_, rfl⟩
  · exact ⟨it.out, rfl⟩

/-! ## One segment -/

/-- The end of a segment: the successor is loaded at the end of the block, then the
counter is updated. -/
def closing (cfg : Config) (a : Addr) (it : Iter T) : Pc T :=
  if it.index = cfg.bl then .iNext it else .iConsume it a

/-- The last slot of a segment leads to the counter with either policy. -/
theorem slotRead_last (perItem : Bool) (it : Iter T)
    (h : it.index + 1 = cfg.bl ∨ it.len - 1 = 0) :
    slotRead cfg perItem s it a = (s, closing cfg a it.advanced) := by
  unfold slotRead closing
  by_cases hend : it.index + 1 = cfg.bl
  · rw [if_pos hend, if_pos (show it.advanced.index = cfg.bl from hend)]
  · rw [if_neg hend, if_neg (show ¬ it.advanced.index = cfg.bl from hend),
      if_pos (.inr (h.resolve_left hend))]

/-- A segment of `m` slots of the block `a`, at the end of the block or of the
reservation. -/
structure Segment (cfg : Config) (s : Shared T) (it : Iter T) (a : Addr) (m : ℕ) : Prop where
  block : it.block = some a
  pos : 0 < m
  inside : it.index + m ≤ cfg.bl
  le : m ≤ it.len
  ends : it.index + m = cfg.bl ∨ m = it.len
  settled : ∀ k, k < m → ((s.heap a).slots (it.index + k)).Settled
  room : (s.heap a).consumed + it.pending + m ≤ cfg.bl

/-- An access to a slot or the counter of `a` that does not complete it. -/
def Quiet (a : Addr) (e : Access) : Prop := e.completes = false ∧ e.recycles = false ∧
  ∀ b, e.touches b = true → b = a

/-- **Both policies read a segment alike.**  The iterator by items stands at the
counter with one slot pending where the other one has all of them pending. -/
theorem segment_agree {m : ℕ} (h : Segment cfg s it a m) :
    ∃ s' it' es es',
      Iterates cfg false t (s, .iRead it) es (s', closing cfg a it') ∧
      Iterates cfg true t (s.count a it.pending, .iRead { it with pending := 0 }) es'
        (s'.count a (it'.pending - 1), closing cfg a { it' with pending := 1 }) ∧
      OnlyReads a s s' ∧ (∀ e ∈ es, Quiet a e) ∧ (∀ e ∈ es', Quiet a e) ∧
      it'.pending = it.pending + m ∧ it'.index = it.index + m ∧ it'.len = it.len - m ∧
      it'.block = some a := by
  induction m generalizing s it with
  | zero => exact absurd h.pos (by decide)
  | succ m ih =>
    have hinside := h.inside
    have hle := h.le
    have hsettled : ((s.heap a).slots it.index).Settled := h.settled 0 (by omega)
    obtain ⟨out, hout⟩ := fetch_iter cfg t s it a
    have hreads := fetch_onlyReads cfg t s it a
    have hquiet : ∀ e ∈ [Access.slot a it.index], Quiet a e := by
      intro e he
      obtain rfl := List.mem_singleton.mp he
      exact ⟨rfl, rfl, fun b hb => (of_decide_eq_true hb).symm⟩
    -- the step that reads the slot, with either policy
    have hseg := iterStep_read cfg t false s it h.block hsettled
    have hitem : iterStep cfg true t (s.count a it.pending, .iRead { it with pending := 0 }) =
        some (slotRead cfg true ((fetch cfg t s it a).1.count a it.pending)
          { (fetch cfg t s it a).2 with pending := 0 } a) := by
      rw [iterStep_read cfg t true _ { it with pending := 0 } h.block (by
        rw [count_heap_self]
        exact hsettled), fetch_count, fetch_pending]
    have hshow : accesses cfg (s, .iRead it) = [.slot a it.index] := by
      simp [accesses, h.block]
    have hshow' : accesses cfg (s.count a it.pending, .iRead { it with pending := 0 }) =
        [.slot a it.index] := by
      simp [accesses, h.block]
    generalize hs₁ : (fetch cfg t s it a).1 = s₁ at hseg hitem hreads
    rw [hout] at hseg hitem
    by_cases hm : m = 0
    · -- the last slot of the segment
      subst hm
      have hends : it.index + 1 = cfg.bl ∨ it.len - 1 = 0 := by
        have := h.ends
        omega
      rw [slotRead_last false { it with out := out } hends] at hseg
      rw [slotRead_last true { it with out := out, pending := 0 } hends] at hitem
      exact ⟨s₁, Iter.advanced { it with out := out }, _, _, .shown hseg hshow (.refl _),
        .shown hitem hshow' (.refl _), hreads, hquiet, hquiet, rfl, rfl, rfl, h.block⟩
    · -- further slots follow in this block
      have hseg₁ : iterStep cfg false t (s, .iRead it) =
          some (s₁, .iRead (Iter.advanced { it with out := out })) := by
        rw [hseg, slotRead, if_neg (by dsimp only; omega), if_neg (by
          dsimp only
          simp only [Bool.false_eq_true, false_or]
          omega)]
      have hitem₁ : iterStep cfg true t (s.count a it.pending, .iRead { it with pending := 0 }) =
          some (s₁.count a it.pending,
            .iConsume { Iter.advanced { it with out := out } with pending := 1 } a) := by
        rw [hitem, slotRead, if_neg (by dsimp only; omega), if_pos (.inl rfl)]
        rfl
      have hroom := h.room
      have hnot : ¬ ((s₁.count a it.pending).heap a).consumed + 1 = cfg.bl := by
        rw [count_heap_self]
        show ¬ (s₁.heap a).consumed + it.pending + 1 = cfg.bl
        rw [hreads.consumed]
        omega
      have hitem₂ : iterStep cfg true t (s₁.count a it.pending,
            .iConsume { Iter.advanced { it with out := out } with pending := 1 } a) =
          some (s₁.count a (it.pending + 1),
            .iRead { Iter.advanced { it with out := out } with pending := 0 }) := by
        show step cfg t .run (s₁.count a it.pending)
          (.iConsume { Iter.advanced { it with out := out } with pending := 1 } a) = _
        simp only [step, stepWith, if_neg hnot]
        rw [show (s₁.count a it.pending).modBlock a (·.addConsumed 1) =
          s₁.count a (it.pending + 1) from count_count s₁ a it.pending 1]
        unfold iterOn
        rw [if_neg (by simp only [Iter.advanced]; omega)]
      have h₁ : Segment cfg s₁ (Iter.advanced { it with out := out }) a m := by
        refine ⟨h.block, by omega, ?_, ?_, ?_, fun k hk => ?_, ?_⟩
        · show it.index + 1 + m ≤ cfg.bl
          omega
        · show m ≤ it.len - 1
          omega
        · show it.index + 1 + m = cfg.bl ∨ m = it.len - 1
          have := h.ends
          omega
        · rw [← hs₁]
          apply fetch_settled
          show ((s.heap a).slots (it.index + 1 + k)).Settled
          rw [Nat.add_right_comm, Nat.add_assoc]
          exact h.settled (k + 1) (by omega)
        · rw [hreads.consumed]
          show (s.heap a).consumed + (it.pending + 1) + m ≤ cfg.bl
          omega
      obtain ⟨s', it', es, es', hrun, hrun', hreads', hq, hq', hpend, hidx, hlen, hblock⟩ := ih h₁
      have hconsume : accesses cfg (s₁.count a it.pending,
          .iConsume { Iter.advanced { it with out := out } with pending := 1 } a) =
          [.consume a 1 false] := by
        simp only [accesses, hnot, decide_false]
      refine ⟨s', it', _, _, .shown hseg₁ hshow hrun,
        .shown hitem₁ hshow' (.shown hitem₂ hconsume hrun'), hreads.trans hreads',
        ?_, ?_, ?_, ?_, ?_, hblock⟩
      · intro e he
        rcases List.mem_cons.mp he with rfl | he
        · exact hquiet _ (List.mem_singleton_self _)
        · exact hq e he
      · intro e he
        rcases List.mem_cons.mp he with rfl | he
        · exact hquiet _ (List.mem_singleton_self _)
        · rcases List.mem_cons.mp he with rfl | he
          · exact ⟨rfl, rfl, fun b hb => (of_decide_eq_true hb).symm⟩
          · exact hq' e he
      · rw [hpend]
        show it.pending + 1 + m = _
        omega
      · rw [hidx]
        show it.index + 1 + m = _
        omega
      · rw [hlen]
        show it.len - 1 - m = _
        omega

/-! ## The update of the counter -/

/-- The iterator moves to the successor at the end of a block. -/
def Iter.crossed (cfg : Config) (s : Shared T) (a : Addr) (it : Iter T) : Iter T :=
  if it.index = cfg.bl then { it with block := (s.heap a).next, index := 0 } else it

/-- What follows an update of the counter: a complete block goes to the pool or is
freed. -/
def finishBlock (cfg : Config) (s : Shared T) (a : Addr) : Shared T × List Access :=
  if (s.heap a).consumed = cfg.bl then
    if (s.heap a).run.isNone then
      if s.pool.isNone then
        ({ s.modBlock a (·.reset) with pool := some a }, [.reset a, .pool a true])
      else ((s.modBlock a (·.reset)).free cfg a, [.reset a, .pool a false, .free a])
    else (s.free cfg a, [.free a])
  else (s, [])

/-- The successor is loaded before the counter is touched. -/
theorem closing_runs (cfg : Config) (t : Tid) (perItem : Bool) (s : Shared T) (it : Iter T)
    (hb : it.block = some a) :
    Iterates cfg perItem t (s, closing cfg a it) (if it.index = cfg.bl then [.next a] else [])
      (s, .iConsume (it.crossed cfg s a) a) := by
  unfold closing Iter.crossed
  split
  · refine .shown ?_ ?_ (.refl _)
    · show step cfg t .run s (.iNext it) = _
      simp only [step, stepWith, deref, hb]
    · simp [accesses, hb]
  · exact .refl _

theorem consume_runs (cfg : Config) (t : Tid) (perItem : Bool) (s : Shared T) (it : Iter T)
    (a : Addr) :
    Iterates cfg perItem t (s, .iConsume it a)
      (.consume a it.pending (decide ((s.heap a).consumed + it.pending = cfg.bl)) ::
        (finishBlock cfg (s.count a it.pending) a).2)
      (iterOn (finishBlock cfg (s.count a it.pending) a).1 t { it with pending := 0 }) := by
  have hcount : ((s.count a it.pending).heap a).consumed = (s.heap a).consumed + it.pending := by
    rw [count_heap_self]
    rfl
  have hrun : ((s.count a it.pending).heap a).run = (s.heap a).run := by
    rw [count_heap_self]
    rfl
  unfold finishBlock
  rw [hcount, hrun]
  by_cases hlast : (s.heap a).consumed + it.pending = cfg.bl
  · rw [if_pos hlast]
    by_cases halone : (s.heap a).run.isNone
    · rw [if_pos halone]
      have hconsume : iterStep cfg perItem t (s, .iConsume it a) =
          some (s.count a it.pending, .iReset { it with pending := 0 } a) := by
        show step cfg t .run s (.iConsume it a) = _
        simp only [step, stepWith, if_pos hlast, if_pos halone]
        rfl
      have hreset : iterStep cfg perItem t
          (s.count a it.pending, .iReset { it with pending := 0 } a) =
          some ((s.count a it.pending).modBlock a (·.reset), .iPool { it with pending := 0 } a) :=
        rfl
      refine .shown hconsume rfl ?_
      by_cases hpool : s.pool.isNone
      · rw [if_pos (show (s.count a it.pending).pool.isNone from hpool)]
        refine .shown hreset rfl (.shown ?_ ?_ (.refl _))
        · show step cfg t .run ((s.count a it.pending).modBlock a (·.reset))
            (.iPool { it with pending := 0 } a) = _
          simp only [step, stepWith]
          rw [if_pos (show ((s.count a it.pending).modBlock a (·.reset)).pool.isNone from hpool)]
        · show [Access.pool a s.pool.isNone] = _
          rw [hpool]
      · rw [if_neg (show ¬ (s.count a it.pending).pool.isNone from hpool)]
        have hfail : iterStep cfg perItem t
            ((s.count a it.pending).modBlock a (·.reset), .iPool { it with pending := 0 } a) =
            some ((s.count a it.pending).modBlock a (·.reset),
              .iFree { it with pending := 0 } a) := by
          show step cfg t .run ((s.count a it.pending).modBlock a (·.reset))
            (.iPool { it with pending := 0 } a) = _
          simp only [step, stepWith]
          rw [if_neg (show ¬ ((s.count a it.pending).modBlock a (·.reset)).pool.isNone from hpool)]
        refine .shown hreset rfl (.shown hfail ?_ (.shown rfl rfl (.refl _)))
        show [Access.pool a s.pool.isNone] = _
        rw [Bool.not_eq_true _ |>.mp hpool]
    · rw [if_neg halone]
      have hconsume : iterStep cfg perItem t (s, .iConsume it a) =
          some (s.count a it.pending, .iFree { it with pending := 0 } a) := by
        show step cfg t .run s (.iConsume it a) = _
        simp only [step, stepWith, if_pos hlast, if_neg halone]
        rfl
      exact .shown hconsume rfl (.shown rfl rfl (.refl _))
  · rw [if_neg hlast]
    refine .shown ?_ rfl (.refl _)
    show step cfg t .run s (.iConsume it a) = _
    simp only [step, stepWith, if_neg hlast]
    rfl

theorem finishBlock_others {b : Addr} (hb : b ≠ a) :
    (finishBlock cfg s a).1.heap b = s.heap b := by
  unfold finishBlock
  split
  · split
    · split
      · exact update_of_ne hb _ _
      · exact update_of_ne hb _ _
    · rfl
  · rfl

/-- Recycling a block does not touch it as a live one, nor complete it again. -/
theorem finishBlock_accesses {e : Access} (he : e ∈ (finishBlock cfg s a).2) :
    e.completes = false ∧ ∀ b, e.touches b = false := by
  unfold finishBlock at he
  split at he
  · split at he
    · split at he
      · simp only [List.mem_cons, List.not_mem_nil, or_false] at he
        rcases he with rfl | rfl <;> exact ⟨rfl, fun _ => rfl⟩
      · simp only [List.mem_cons, List.not_mem_nil, or_false] at he
        rcases he with rfl | rfl | rfl <;> exact ⟨rfl, fun _ => rfl⟩
    · obtain rfl := List.mem_singleton.mp he
      exact ⟨rfl, fun _ => rfl⟩
  · cases he

/-- The accesses behind a segment: the successor at the end of the block, the update,
and what follows a completion. -/
def closingAccesses (cfg : Config) (s : Shared T) (a : Addr) (it : Iter T) (quantity : ℕ) :
    List Access :=
  (if it.index = cfg.bl then [.next a] else []) ++
    .consume a quantity (decide ((s.heap a).consumed + it.pending = cfg.bl)) ::
      (finishBlock cfg (s.count a it.pending) a).2

/-- **Both policies end a segment alike**, with one update or with the last of many. -/
theorem close_agree (cfg : Config) (t : Tid) (s : Shared T) (hb : it.block = some a)
    (hpos : 0 < it.pending) :
    Iterates cfg false t (s, closing cfg a it) (closingAccesses cfg s a it it.pending)
      (iterOn (finishBlock cfg (s.count a it.pending) a).1 t
        { it.crossed cfg s a with pending := 0 }) ∧
    Iterates cfg true t (s.count a (it.pending - 1), closing cfg a { it with pending := 1 })
      (closingAccesses cfg s a it 1)
      (iterOn (finishBlock cfg (s.count a it.pending) a).1 t
        { it.crossed cfg s a with pending := 0 }) := by
  have hcross : (it.crossed cfg s a).pending = it.pending := by
    unfold Iter.crossed
    split <;> rfl
  constructor
  · refine (closing_runs cfg t false s it hb).trans ?_
    have h := consume_runs cfg t false s (it.crossed cfg s a) a
    rwa [hcross] at h
  · have h₁ := closing_runs cfg t true (s.count a (it.pending - 1)) { it with pending := 1 } hb
    have hnext : Iter.crossed cfg (s.count a (it.pending - 1)) a { it with pending := 1 } =
        { it.crossed cfg s a with pending := 1 } := by
      unfold Iter.crossed
      rw [count_heap_self]
      split <;> rfl
    rw [hnext] at h₁
    have h₂ := consume_runs cfg t true (s.count a (it.pending - 1))
      { it.crossed cfg s a with pending := 1 } a
    have hsum : it.pending - 1 + 1 = it.pending := by omega
    have hconsumed : ((s.count a (it.pending - 1)).heap a).consumed + 1 =
        (s.heap a).consumed + it.pending := by
      rw [count_heap_self]
      show (s.heap a).consumed + (it.pending - 1) + 1 = _
      omega
    rw [count_count, hsum, hconsumed] at h₂
    exact h₁.trans h₂

/-! ## A whole reservation -/

theorem Reserved.congr {index len : ℕ} (h : Reserved cfg s l index len)
    (hheap : ∀ b ∈ l, s'.heap b = s.heap b) : Reserved cfg s' l index len := by
  induction l generalizing index len with
  | nil => exact h.elim
  | cons a l ih =>
    obtain ⟨hi, hlen, hroom, hset, hrest⟩ := h
    have ha := hheap a (List.mem_cons_self ..)
    refine ⟨hi, hlen, ?_, ?_, fun hlt => ?_⟩
    · rwa [ha]
    · rwa [ha]
    · obtain ⟨hnext, hnot, htail⟩ := hrest hlt
      exact ⟨by rwa [ha], hnot, ih htail fun b hb => hheap b (List.mem_cons_of_mem _ hb)⟩

theorem Access.sealed_append {es rest : List Access} (h : ∀ e ∈ es, e.completes = false)
    (hrest : Sealed rest) : Sealed (es ++ rest) := by
  induction es with
  | nil => exact hrest
  | cons e es ih =>
    have htail := ih fun e he => h e (List.mem_cons_of_mem _ he)
    have he := h e (List.mem_cons_self ..)
    cases e with
    | consume a n last =>
      obtain rfl : last = false := he
      exact htail
    | _ => exact htail

/-- The accesses to one block, and those of the rest of the reservation. -/
theorem sealed_block {es rest : List Access} {quantity : ℕ} (ha : a ∉ l)
    (hes : ∀ e ∈ es, Quiet a e) (hrest : Access.Sealed rest)
    (hl : ∀ e ∈ rest, ∀ b, e.touches b = true → b ∈ l) :
    Access.Sealed (es ++ closingAccesses cfg s a it quantity ++ rest) := by
  have hfin : ∀ e ∈ (finishBlock cfg (s.count a it.pending) a).2,
      e.completes = false ∧ ∀ b, e.touches b = false := fun e => finishBlock_accesses
  have hlate : ∀ e ∈ (finishBlock cfg (s.count a it.pending) a).2 ++ rest, e.touches a = false := by
    intro e he
    rcases List.mem_append.mp he with he | he
    · exact (hfin e he).2 a
    · by_contra hc
      exact ha (hl e he a (by simpa using hc))
  have htail := Access.sealed_append (fun e he => (hfin e he).1) hrest
  unfold closingAccesses
  rw [List.append_assoc, List.append_assoc]
  refine Access.sealed_append (fun e he => (hes e he).1) (Access.sealed_append ?_ ?_)
  · intro e he
    split at he
    · obtain rfl := List.mem_singleton.mp he
      rfl
    · cases he
  · cases decide ((s.heap a).consumed + it.pending = cfg.bl) with
    | true => exact ⟨hlate, htail⟩
    | false => exact htail

/-- The accesses to one block touch no other. -/
theorem closing_touches {quantity : ℕ} {e : Access}
    (he : e ∈ closingAccesses cfg s a it quantity) {b : Addr} (hb : e.touches b = true) :
    b = a := by
  rcases List.mem_append.mp he with he | he
  · split at he
    · obtain rfl := List.mem_singleton.mp he
      exact (of_decide_eq_true hb).symm
    · cases he
  · rcases List.mem_cons.mp he with rfl | he
    · exact (of_decide_eq_true hb).symm
    · simp [(finishBlock_accesses he).2 b] at hb

/-- Which blocks are recycled does not depend on the policy. -/
theorem closing_recycles (quantity : ℕ) :
    (closingAccesses cfg s a it quantity).filter Access.recycles =
      (finishBlock cfg (s.count a it.pending) a).2.filter Access.recycles := by
  unfold closingAccesses
  split <;> rfl

theorem quiet_recycles {es : List Access} (h : ∀ e ∈ es, Quiet a e) :
    es.filter Access.recycles = [] := by
  rw [List.filter_eq_nil_iff]
  intro e he
  rw [(h e he).2.1]
  simp

/-- Both policies, from the same state to the same state, with its counters, its pool,
its freed blocks and the values handed to the caller: what is recycled is the same in
the same order, and no block is accessed once it is complete. -/
structure Agrees (cfg : Config) (t : Tid) (s : Shared T) (it : Iter T) (l : List Addr)
    (s' : Shared T) (segments items : List Access) : Prop where
  bySegment : Iterates cfg false t (s, .iRead it) segments (s', .idle)
  byItem : Iterates cfg true t (s, .iRead it) items (s', .idle)
  recycled : segments.filter Access.recycles = items.filter Access.recycles
  sealedSegments : Access.Sealed segments
  sealedItems : Access.Sealed items
  touched : ∀ e ∈ segments ++ items, ∀ b, e.touches b = true → b ∈ l

/-- **Completing by segments is completing by items.**  For every reservation, whenever
its iterator is dropped (`it.keep` values are taken, `Drop` reads the rest), both
policies run to the end and agree.  By induction on the blocks of the reservation. -/
theorem completions_agree (h : Reserved cfg s l it.index it.len)
    (hb : it.block = l.head?) (hp : it.pending = 0) :
    ∃ s' segments items, Agrees cfg t s it l s' segments items := by
  induction l generalizing s it with
  | nil => exact h.elim
  | cons a l ih =>
    obtain ⟨hidx, hlen, hroom, hset, hrest⟩ := h
    have hseg : Segment cfg s it a (min it.len (cfg.bl - it.index)) :=
      ⟨hb, by omega, by omega, by omega, by omega, hset, by rw [hp]; exact hroom⟩
    obtain ⟨s₁, it₁, es, es', hrun, hrun', hreads, hq, hq', hpend, hindex, hlen₁, hblock⟩ :=
      segment_agree (t := t) hseg
    obtain ⟨hclose, hclose'⟩ := close_agree cfg t s₁ hblock (by omega)
    have hsame : { it with pending := 0 } = it := by
      rw [← hp]
    rw [hp, count_zero, hsame] at hrun'
    have hseg_run := hrun.trans hclose
    have hitem_run := hrun'.trans hclose'
    have hmem : ∀ quantity, ∀ e ∈ es ++ closingAccesses cfg s₁ a it₁ quantity,
        ∀ b, e.touches b = true → b = a := by
      intro quantity e he b htouch
      rcases List.mem_append.mp he with he | he
      · exact (hq e he).2.2 b htouch
      · exact closing_touches he htouch
    have hmem' : ∀ quantity, ∀ e ∈ es' ++ closingAccesses cfg s₁ a it₁ quantity,
        ∀ b, e.touches b = true → b = a := by
      intro quantity e he b htouch
      rcases List.mem_append.mp he with he | he
      · exact (hq' e he).2.2 b htouch
      · exact closing_touches he htouch
    generalize hs₂ : (finishBlock cfg (s₁.count a it₁.pending) a).1 = s₂ at hseg_run hitem_run
    by_cases hmore : cfg.bl - it.index < it.len
    · -- the reservation goes on in the next block
      obtain ⟨hnext, hnot, htail⟩ := hrest hmore
      have hcross : it₁.crossed cfg s₁ a = { it₁ with block := l.head?, index := 0 } := by
        unfold Iter.crossed
        rw [if_pos (by omega), hreads.next, hnext]
      have hon : iterOn s₂ t { it₁.crossed cfg s₁ a with pending := 0 } =
          (s₂, .iRead { it₁ with block := l.head?, index := 0, pending := 0 }) := by
        rw [hcross]
        unfold iterOn
        rw [if_neg (by dsimp only; omega)]
      rw [hon] at hseg_run hitem_run
      have hheap : ∀ b ∈ l, s₂.heap b = s.heap b := by
        intro b hbl
        have hba : b ≠ a := by
          rintro rfl
          exact hnot hbl
        rw [← hs₂, finishBlock_others hba]
        show update s₁.heap a _ b = _
        rw [update_of_ne hba]
        exact hreads.others b hba
      have htail₂ : Reserved cfg s₂ l 0 it₁.len := by
        rw [hlen₁, show min it.len (cfg.bl - it.index) = cfg.bl - it.index by omega]
        exact htail.congr hheap
      obtain ⟨s', segments, items, hag⟩ :=
        @ih s₂ { it₁ with block := l.head?, index := 0, pending := 0 } htail₂ rfl rfl
      have htouch : ∀ e ∈ segments, ∀ b, e.touches b = true → b ∈ l :=
        fun e he => hag.touched e (List.mem_append_left _ he)
      have htouch' : ∀ e ∈ items, ∀ b, e.touches b = true → b ∈ l :=
        fun e he => hag.touched e (List.mem_append_right _ he)
      refine ⟨s', _, _, hseg_run.trans hag.bySegment, hitem_run.trans hag.byItem, ?_,
        sealed_block hnot hq hag.sealedSegments htouch,
        sealed_block hnot hq' hag.sealedItems htouch', ?_⟩
      · simp only [List.filter_append, quiet_recycles hq, quiet_recycles hq', closing_recycles,
          hag.recycled]
      · intro e he b htb
        rcases List.mem_append.mp he with he | he
        · rcases List.mem_append.mp he with he | he
          · exact hmem _ e he b htb ▸ List.mem_cons_self ..
          · exact List.mem_cons_of_mem _ (htouch e he b htb)
        · rcases List.mem_append.mp he with he | he
          · exact hmem' _ e he b htb ▸ List.mem_cons_self ..
          · exact List.mem_cons_of_mem _ (htouch' e he b htb)
    · -- the last block
      have hzero : it₁.len = 0 := by omega
      have hon : ∃ s', iterOn s₂ t { it₁.crossed cfg s₁ a with pending := 0 } = (s', .idle) := by
        have hlen₂ : (it₁.crossed cfg s₁ a).len = 0 := by
          unfold Iter.crossed
          split <;> exact hzero
        unfold iterOn
        rw [if_pos hlen₂]
        exact ⟨_, rfl⟩
      obtain ⟨s', hon⟩ := hon
      rw [hon] at hseg_run hitem_run
      have hsealed : ∀ {x : List Access} {n : ℕ}, (∀ e ∈ x, Quiet a e) →
          Access.Sealed (x ++ closingAccesses cfg s₁ a it₁ n) := by
        intro x n hx
        have h : Access.Sealed (x ++ closingAccesses cfg s₁ a it₁ n ++ []) :=
          sealed_block (l := []) (by simp) hx trivial (by simp)
        rwa [List.append_nil] at h
      refine ⟨s', _, _, hseg_run, hitem_run, ?_, hsealed hq, hsealed hq', ?_⟩
      · simp only [List.filter_append, quiet_recycles hq, quiet_recycles hq', closing_recycles]
      · intro e he b htb
        rcases List.mem_append.mp he with he | he
        · exact hmem _ e he b htb ▸ List.mem_cons_self ..
        · exact hmem' _ e he b htb ▸ List.mem_cons_self ..

/-- Blocks of two slots: of the first block one slot is left, with a value, of the second
the first one is skipped. -/
def twoLeft : Shared ℕ :=
  { (Shared.new : Shared ℕ) with
    heap := fun b => if b = 100 then ⟨some 101, none, 1, fun _ => ⟨.written, some 7, false⟩⟩
      else ⟨none, none, 0, fun _ => ⟨.skip, none, false⟩⟩ }

theorem completions_agree_two_blocks :
    ∃ s' segments items, Agrees ⟨2, true, by decide⟩ 0 twoLeft
      ⟨2, 1, 2, 1, some 100, 1, 2, 0, []⟩ [100, 101] s' segments items := by
  have hres : Reserved ⟨2, true, by decide⟩ twoLeft [100, 101] 1 2 := by
    refine ⟨by decide, by decide, by decide, fun k _ => .inr ⟨rfl, rfl⟩,
      fun _ => ⟨rfl, by decide, ?_⟩⟩
    exact ⟨by decide, by decide, by decide, fun k _ => .inl rfl, fun h => absurd h (by decide)⟩
  exact completions_agree hres rfl rfl

end Mpmc
