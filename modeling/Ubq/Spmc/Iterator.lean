/-
# The iterator of the SPMC queue

A reservation is read item by item (`SPMCIter::next`) or moved into a vector
(`SPMCIter::append_to_vec`).  The one completes each slot it reads, the other the range it
has in a block; the last completion of a block sends it to the cache.  `mixed_reads` says
that the values and the queue left behind do not depend on how a reservation is read.
-/
import Ubq.Chain

namespace Spmc

/-- A block. -/
structure Block (T : Type) where
  next : Option Addr
  produced : ℕ
  consumed : ℕ
  slots : ℕ → Option T

/-- The blocks, and the head of the intrusive cache. -/
structure State (T : Type) where
  heap : Addr → Block T
  pool : Option Addr

/-- What goes wrong. -/
inductive Fault
  | null
  | uninit
  /-- The loop has not returned within the turns it was given. -/
  | turns

/-- The iterator. -/
structure Iter where
  block : Option Addr
  index : ℕ
  len : ℕ

variable {T : Type} (bl : ℕ)

/-- `SpmcBlock::reset`: the link and the counters, not the payload. -/
def Block.reset (b : Block T) : Block T := { b with next := none, produced := 0, consumed := 0 }

namespace State

/-- A block changes. -/
def modBlock (s : State T) (a : Addr) (f : Block T → Block T) : State T :=
  { s with heap := Function.update s.heap a (f (s.heap a)) }

/-- `BlockCache::give`. -/
def give (s : State T) (block : Addr) : State T :=
  { s.modBlock block fun b => { b with next := s.pool } with pool := some block }

/-- The block is reset and given back. -/
def recycle (s : State T) (block : Addr) : State T := (s.modBlock block Block.reset).give block

/-- `SpmcBlock::consume`; the last completion recycles the block. -/
def consume (s : State T) (block : Addr) (quantity : ℕ) : State T :=
  let s' := s.modBlock block fun b => { b with consumed := b.consumed + quantity }
  if (s.heap block).consumed + quantity = bl then s'.recycle block else s'

end State

/-- The iterator behind `quantity` slots of its block. -/
def Iter.advance (it : Iter) (s : State T) (block : Addr) (quantity : ℕ) : Iter :=
  if it.index + quantity = bl then ⟨(s.heap block).next, 0, it.len - quantity⟩
  else ⟨it.block, it.index + quantity, it.len - quantity⟩

/-- `SPMCIter::next`. -/
def Iter.next (it : Iter) (s : State T) : Except Fault (State T × Iter × Option T) :=
  if it.len = 0 then .ok (s, it, none)
  else match it.block with
    | none => .error .null
    | some block =>
      match (s.heap block).slots it.index with
      | none => .error .uninit
      | some value => .ok (s.consume bl block 1, it.advance bl s block 1, some value)

/-- At most `n` items, as a loop over `next` takes them; `drop` takes all. -/
def Iter.take : ℕ → Iter → State T → Except Fault (State T × Iter × List T)
  | 0, it, s => .ok (s, it, [])
  | n + 1, it, s => do
    match ← it.next bl s with
    | (s, it, none) => .ok (s, it, [])
    | (s, it, some value) =>
      let (s, it, values) ← Iter.take n it s
      .ok (s, it, value :: values)

/-- `SpmcBlock::append_to_vec`. -/
def Block.appendToVec (b : Block T) (index quantity : ℕ) (values : List T) :
    Except Fault (List T) :=
  match (List.range' index quantity).mapM b.slots with
  | none => .error .uninit
  | some moved => .ok (values ++ moved)

/-- `SPMCIter::append_to_vec`. -/
def Iter.appendToVec : ℕ → Iter → State T → List T → Except Fault (State T × List T)
  | 0, _, _, _ => .error .turns
  | fuel + 1, it, s, values =>
    if it.len = 0 then .ok (s, values)
    else match it.block with
      | none => .error .null
      | some block => do
        let quantity := min it.len (bl - it.index)
        let values ← (s.heap block).appendToVec it.index quantity values
        Iter.appendToVec fuel (it.advance bl s block quantity) (s.consume bl block quantity) values

/-- The reservation runs through the blocks `l`, each with the values to be read and with
room for their completion, whatever else of it is completed. -/
def Claims (s : State T) : List Addr → Iter → Prop
  | [], it => it.len = 0
  | a :: l, it =>
    let quantity := min it.len (bl - it.index)
    it.block = some a ∧ 0 < quantity ∧ a ∉ l ∧ (s.heap a).consumed + quantity ≤ bl ∧
    (∀ i < quantity, ((s.heap a).slots (it.index + i)).isSome) ∧
    Claims s l (it.advance bl s a quantity)

variable {bl} {s s' : State T} {it : Iter} {a : Addr} {q : ℕ} {l : List Addr}

/-- What is completed in another block does not matter to a reservation. -/
theorem Claims.consume (ha : a ∉ l) (h : Claims bl s l it) : Claims bl (s.consume bl a q) l it := by
  induction l generalizing it with
  | nil => exact h
  | cons b l ih =>
    obtain ⟨hblock, hq, hb, hroom, hslots, hrest⟩ := h
    obtain ⟨hab, ha⟩ : a ≠ b ∧ a ∉ l := by simpa using ha
    have hheap : (s.consume bl a q).heap b = s.heap b := by
      unfold State.consume
      split_ifs <;> simp [State.recycle, State.give, State.modBlock, hab.symm]
    refine ⟨hblock, hq, hb, by rwa [hheap], by rwa [hheap], ?_⟩
    rw [Iter.advance, hheap]
    exact ih ha hrest

/-! ## One block -/

theorem consume_short (h : (s.heap a).consumed + q ≠ bl) :
    s.consume bl a q = s.modBlock a fun b => { b with consumed := b.consumed + q } := if_neg h

/-- Completions of one block add up, as long as the first is not the last. -/
theorem consume_consume (h : (s.heap a).consumed + 1 ≠ bl) :
    (s.consume bl a 1).consume bl a q = s.consume bl a (q + 1) := by
  have hsum : (s.heap a).consumed + 1 + q = (s.heap a).consumed + (q + 1) := by omega
  rw [consume_short h]
  simp [State.consume, State.modBlock, hsum]

/-- An item that is not the last of its block leaves the reservation in this block. -/
theorem advance_advance (h : it.index + 1 ≠ bl) (hc : (s.heap a).consumed + 1 ≠ bl) :
    (it.advance bl s a 1).advance bl (s.consume bl a 1) a q = it.advance bl s a (q + 1) := by
  have hsum : it.index + 1 + q = it.index + (q + 1) := by omega
  rw [consume_short hc]
  simp [Iter.advance, h, hsum, State.modBlock, Nat.sub_sub, Nat.add_comm 1 q]

theorem mapM_filled {slots : ℕ → Option T} {i : ℕ} (h : ∀ j < q, (slots (i + j)).isSome) :
    ∃ moved, (List.range' i q).mapM slots = some moved := by
  induction q generalizing i with
  | zero => exact ⟨[], rfl⟩
  | succ q ih =>
    obtain ⟨v, hv⟩ := Option.isSome_iff_exists.mp (h 0 (by omega))
    obtain ⟨moved, hm⟩ := ih (i := i + 1) fun j hj => by
      simpa [Nat.add_assoc, Nat.add_comm 1 j] using h (j + 1) (by omega)
    exact ⟨v :: moved, by simp [List.range'_succ, show slots i = some v from hv, hm]⟩

/-- One turn of the bulk loop. -/
theorem append_turn {g : ℕ} {moved values : List T} (hblock : it.block = some a)
    (hq : min it.len (bl - it.index) = q) (h0 : q ≠ 0)
    (hm : (List.range' it.index q).mapM (s.heap a).slots = some moved) :
    it.appendToVec bl (g + 1) s values =
      (it.advance bl s a q).appendToVec bl g (s.consume bl a q) (values ++ moved) := by
  rw [Iter.appendToVec, if_neg (by omega), hblock]
  simp [hq, Block.appendToVec, hm, bind, Except.bind]

/-! ## Whole reservations -/

/-- Moving the reservation into a vector appends `vs` and leaves `s'`. -/
def Appends (bl : ℕ) (it : Iter) (s s' : State T) (vs : List T) : Prop :=
  ∀ g values, it.len < g → it.appendToVec bl g s values = .ok (s', values ++ vs)

/-- The first item of a reservation: what is left is one too, and moving it into a vector
behind this item is moving the whole. -/
theorem Claims.next (h : Claims bl s l it) (hlen : it.len ≠ 0) :
    ∃ s₁ it₁ v l', it.next bl s = .ok (s₁, it₁, some v) ∧ it₁.len = it.len - 1 ∧
      Claims bl s₁ l' it₁ ∧ ∀ s' vs, Appends bl it₁ s₁ s' vs → Appends bl it s s' (v :: vs) := by
  cases l with
  | nil => exact absurd h hlen
  | cons a l =>
    obtain ⟨hblock, hq, ha, hroom, hslots, hrest⟩ := h
    generalize hqdef : min it.len (bl - it.index) = q at hq hroom hslots hrest
    obtain ⟨p, rfl⟩ : ∃ p, q = p + 1 := ⟨q - 1, by omega⟩
    obtain ⟨v, hv⟩ : ∃ v, (s.heap a).slots it.index = some v :=
      Option.isSome_iff_exists.mp (hslots 0 hq)
    have hnext : it.next bl s = .ok (s.consume bl a 1, it.advance bl s a 1, some v) := by
      simp [Iter.next, hlen, hblock, hv]
    have hlater : ∀ i < p, ((s.heap a).slots (it.index + 1 + i)).isSome := fun i h => by
      simpa [Nat.add_assoc, Nat.add_comm 1 i] using hslots (i + 1) (by omega)
    obtain ⟨moved, hm⟩ := mapM_filled hlater
    have hbulk : (List.range' it.index (p + 1)).mapM (s.heap a).slots = some (v :: moved) := by
      simp [List.range'_succ, hv, hm]
    by_cases h0 : p = 0
    · subst h0
      have hlen₁ : (it.advance bl s a 1).len = it.len - 1 := by unfold Iter.advance; split <;> rfl
      refine ⟨_, _, v, l, hnext, hlen₁, hrest.consume ha, fun s' vs happ g values hg => ?_⟩
      cases hm
      obtain ⟨g, rfl⟩ : ∃ n, g = n + 1 := ⟨g - 1, by omega⟩
      rw [append_turn hblock hqdef (by omega) hbulk, happ g _ (by omega), List.append_assoc]
      rfl
    -- The item is neither the last of the block nor its last completion.
    · have hc : (s.heap a).consumed + 1 ≠ bl := by omega
      have hi : it.index + 1 ≠ bl := by omega
      have hadv : it.advance bl s a 1 = ⟨some a, it.index + 1, it.len - 1⟩ := by
        rw [Iter.advance, if_neg hi, hblock]
      have hheap : (s.consume bl a 1).heap a =
          { s.heap a with consumed := (s.heap a).consumed + 1 } := by
        simp [consume_short hc, State.modBlock]
      have hp : min (it.len - 1) (bl - (it.index + 1)) = p := by omega
      have hadv₂ := advance_advance (q := p) hi hc
      rw [hadv] at hnext hadv₂
      refine ⟨_, _, v, a :: l, hnext, rfl, ?_, fun s' vs happ g values hg => ?_⟩
      · simp only [Claims, hp, hheap, hadv₂]
        exact ⟨trivial, by omega, ha, by omega, hlater, hrest.consume ha⟩
      · obtain ⟨g, rfl⟩ : ∃ n, g = n + 1 := ⟨g - 1, by omega⟩
        have hrun := happ (g + 1) (values ++ [v]) (by show it.len - 1 < g + 1; omega)
        rw [append_turn rfl hp h0 (by rwa [hheap]), hadv₂, consume_consume hc] at hrun
        rw [append_turn hblock hqdef (by omega) hbulk]
        simpa using hrun

/-- **However a reservation is read**, with `n` items first and the rest at once, it gives
the same values and leaves the same counters, links and cache. -/
theorem mixed_reads (h : Claims bl s l it) :
    ∃ (s' : State T) (vs : List T), vs.length = it.len ∧ ∀ n, ∃ s₁ it₁,
      it.take bl n s = .ok (s₁, it₁, vs.take n) ∧ it₁.len = it.len - n ∧
      Appends bl it₁ s₁ s' (vs.drop n) := by
  induction hn : it.len generalizing s it l with
  | zero =>
    refine ⟨s, [], rfl, fun n => ⟨s, it, ?_, by omega, ?_⟩⟩
    · cases n <;> simp [Iter.take, Iter.next, hn, bind, Except.bind]
    · rintro (_ | g) values hg
      · omega
      · simp [Iter.appendToVec, hn]
  | succ len ih =>
    obtain ⟨s₁, it₁, v, l', hnext, hlen, h₁, hbulk⟩ := h.next (by omega)
    obtain ⟨s', vs, hvs, hrest⟩ := ih h₁ (by omega)
    refine ⟨s', v :: vs, by simp [hvs], fun n => ?_⟩
    cases n with
    | zero =>
      obtain ⟨s₂, it₂, htake, _, happ⟩ := hrest 0
      cases htake
      exact ⟨s, it, rfl, hn, hbulk s' vs happ⟩
    | succ n =>
      obtain ⟨s₂, it₂, htake, hlen₂, happ⟩ := hrest n
      exact ⟨s₂, it₂, by simp [Iter.take, hnext, htake, bind, Except.bind], by omega, happ⟩

/-- Two linked blocks, the first with one completed slot. -/
def halfRead : State ℕ := ⟨fun a => ⟨if a = 0 then some 1 else none, 2, 1 - a, some⟩, none⟩

theorem mixed_reads_two_blocks : ∃ (s' : State ℕ) (vs : List ℕ), vs.length = 3 ∧ ∀ n, ∃ s₁ it₁,
    Iter.take 2 n ⟨some 0, 1, 3⟩ halfRead = .ok (s₁, it₁, vs.take n) ∧ it₁.len = 3 - n ∧
    Appends 2 it₁ s₁ s' (vs.drop n) :=
  mixed_reads (show Claims 2 halfRead [0, 1] ⟨some 0, 1, 3⟩ by
    simp [Claims, Iter.advance, halfRead])

end Spmc
