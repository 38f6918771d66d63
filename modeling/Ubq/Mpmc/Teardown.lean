/-
# Dropping the MPMC queue

A single caller may hold several iterators open at once; each of them is a thread
of its own that moves only while the others rest.  A thread rests when it is idle
or its iterator stands between two slots (`Pc.atRest`), and an iterator that is
leaked is a thread that never moves again.  Such runs never claim with a stale
snapshot, so the concurrent proof outline applies to those whose requests fit a word
(`FitSerial.calm`).

`Shared.drop` is `UBQ::drop`: it frees the chain from `chead.block` and then the
pool.  `Block::free` takes the `consumed` counter of a block for the length of a
prefix that was read.  With every iterator finished that is right, and each value
is handed out or dropped exactly once.  With an iterator leaked half-way it need not be:
`Harmless` says of the leaked iterators when it is, and `leaked_iterator` drops a value
that was handed out before.
-/
import Ubq.Mpmc.Sequential

namespace Mpmc

open Interleave

variable {T : Type*} {cfg : Config} {t u : Tid} {s s' : Shared T} {g g' : Ghost T} {c : Conf T}
variable {m p : ℕ} {a : Addr} {v : T} {k : ℕ} {b : Addr}

/-! ## A single caller -/

/-- Between two operations: idle, or with an iterator between two slots. -/
def Pc.atRest : Pc T → Bool
  | .idle | .iRead _ => true
  | _ => false

/-- The runs of a single caller on words up to `m`. -/
def Serial (cfg : Config) (m : ℕ) : Conf T → Prop := (words T cfg m).Serial Pc.atRest

/-- Those whose requests fit. -/
def FitSerial (cfg : Config) (m : ℕ) : Conf T → Prop := (fittingWords T cfg m).Serial Pc.atRest

theorem current_of_atRest {pc : Pc T} (h : pc.atRest = true) : Current t s pc := by
  cases pc with
  | cPhead | cCas => simp [Pc.atRest] at h
  | _ => trivial

/-- **A single caller never claims with a stale snapshot.** -/
theorem FitSerial.calm (h : FitSerial cfg m c) :
    (Mpmc.calm T cfg).Reachable c ∧ ∀ u, Current u c.sh (c.pc u) := by
  have hexact : (fitting T cfg m).Serial Pc.atRest c :=
    System.Serial.of_moves h rfl fun _ _ _ => words_moves fun _ _ _ _ _ hfit => hfit
  clear h
  induction hexact with
  | start => exact ⟨.start, fun u => trivial⟩
  | @step c c' t _ hrest hm ih =>
    obtain ⟨hcalm, hcur⟩ := ih
    obtain ⟨s', p', ⟨⟨act, hs⟩, _⟩, rfl⟩ := hm
    refine ⟨hcalm.step (t := t) ⟨s', p', ⟨⟨act, hs⟩, (hcur t).abaFree⟩, rfl⟩, fun u => ?_⟩
    by_cases hu : u = t
    · subst hu
      simpa using current_step (hcur u) hs
    · simpa [Function.update_of_ne hu] using current_of_atRest (hrest u hu)

/-- Run a schedule of a single caller on words from the start, giving up at a step that
`ok` forbids. -/
def serially (cfg : Config) (m : ℕ) (ok : Tid → Shared T → Pc T → Shared T → Pc T → Prop)
    [∀ t s p s' p', Decidable (ok t s p s' p')] (sched : List (Tid × Act T)) : Option (Conf T) :=
  System.serially Pc.atRest
    (System.guarded (stepWith (wordAdd m) cfg) ok) none sched (words T cfg m).start

theorem serially_serial {ok : Tid → Shared T → Pc T → Shared T → Pc T → Prop}
    [∀ t s p s' p', Decidable (ok t s p s' p')] {sched : List (Tid × Act T)}
    (h : serially cfg m ok sched = some c) (hsched : ∀ e ∈ sched, e.1 < 3) :
    ((words T cfg m).restrict ok).Serial Pc.atRest c ∧ ∀ u, 3 ≤ u → c.pc u = .idle := by
  have hboth : (System.ofStep Shared.new .idle _).Serial Pc.atRest c ∧ _ :=
    System.serially_serial .start (fun _ _ => rfl) h
  obtain ⟨hserial, hruns⟩ := hboth
  refine ⟨hserial.of_moves rfl fun _ _ _ _ hm => System.guarded_moves hm, fun u hu => ?_⟩
  exact System.runs_other
    (fun e he hc => absurd (hsched e he) (hc ▸ Nat.not_lt.mpr hu)) hruns

/-! ## What holds while every thread rests -/

/-- All threads at rest: no boundary is open, no thread holds a block, and what is
claimed but not completed belongs to an open iterator. -/
structure Resting (cfg : Config) (c : Conf T) (g : Ghost T) : Prop where
  inv : Inv cfg c.sh g
  stage : g.stage = .fresh ∨ g.stage = .ready
  pown : g.pown = none
  cown : g.cown = none
  held : ∀ a t, g.owner a ≠ .held t
  pending : ∀ t, g.L.Pending t 0 0
  open_iter : ∀ t, (c.pc t = .idle ∧ g.L.Covers t 0 0) ∨
    ∃ it k, c.pc t = .iRead it ∧ Reading cfg t c.sh g it k

theorem Good.resting (h : Good cfg c g) (hrest : ∀ u, (c.pc u).atRest = true) :
    Resting cfg c g := by
  obtain ⟨hI, hL⟩ := h
  have hpc : ∀ u, (c.pc u).holdsI = false ∧ (c.pc u).holdsP = false ∧
      (c.pc u).holdsC cfg = false ∧ (c.pc u).writing = false ∧ (c.pc u).owns = [] := by
    intro u
    have hu := hrest u
    cases hp : c.pc u with
    | idle | iRead => exact ⟨rfl, rfl, rfl, rfl, rfl⟩
    | _ => rw [hp] at hu; exact absurd hu (by simp [Pc.atRest])
  refine ⟨hI, ?_, ?_, ?_, fun a u ha => ?_, fun u => (hL u).pending (hpc u).2.2.2.1, fun u => ?_⟩
  · cases hst : g.stage with
    | fresh => exact Or.inl rfl
    | ready => exact Or.inr rfl
    | opening u =>
      have := (hL u).holdsI.mp hst
      simp [(hpc u).1] at this
  · cases hp : g.pown with
    | none => rfl
    | some u =>
      have := (hL u).holdsP.mp hp
      simp [(hpc u).2.1] at this
  · cases hc : g.cown with
    | none => rfl
    | some u =>
      have := (hL u).holdsC.mp hc
      simp [(hpc u).2.2.1] at this
  · have := (hL u).keeps a ha
    simp [(hpc u).2.2.2.2] at this
  · have hu := hrest u
    cases hp : c.pc u with
    | idle => exact Or.inl ⟨rfl, (hL u).covers (by rw [hp]; rfl)⟩
    | iRead it =>
      have hhere := (hL u).here
      rw [hp] at hhere
      obtain ⟨k, hk⟩ := hhere
      exact Or.inr ⟨it, k, rfl, hk⟩
    | _ => rw [hp] at hu; exact absurd hu (by simp [Pc.atRest])

/-- The end of a serial run in which every thread rests. -/
theorem FitSerial.resting (h : FitSerial cfg m c) (hrest : ∀ u, (c.pc u).atRest = true) :
    ∃ g, Resting cfg c g := by
  obtain ⟨g, hg⟩ := run_ok h.calm.1
  exact ⟨g, hg.resting hrest⟩

namespace Resting

section

variable (h : Resting cfg c g)

include h

/-- Where the consumers stand. -/
theorem cpos : ∃ off, off < cfg.bl ∧ g.L.cpos = g.ck * cfg.bl + off ∧
    c.sh.chead.block = c.sh.linked[g.ck]? ∧ (0 < g.ck + off → g.stage = .ready) ∧
      (g.stage = .ready → c.sh.chead.index = off) := by
  have hc := h.inv.chead
  unfold ConsHead at hc
  rcases h.stage with hst | hst <;> rw [hst] at hc
  · obtain ⟨hz, hck, hcp, _⟩ := hc
    refine ⟨0, cfg.bl_pos, by simp [hck, hcp], ?_, fun hlt => by omega, fun hc => ?_⟩
    · rw [hz, h.inv.fresh_iff.mp hst]
      rfl
    · simp [hst] at hc
  · simp only [h.cown] at hc
    obtain ⟨off, f, hlt, hhead, hpos, _⟩ := hc
    exact ⟨off, hlt, hpos, by rw [hhead], fun _ => hst, fun _ => by rw [hhead]⟩

/-- The blocks from `chead` on are all in the chain. -/
theorem live (hk : g.ck ≤ k) (ha : c.sh.linked[k]? = some a) : g.owner a = .chain k := by
  obtain ⟨off, hlt, hpos, _⟩ := h.cpos
  have hmul := Nat.mul_le_mul_right cfg.bl hk
  exact live_of_unclaimed h.inv ha (i := cfg.bl - 1) (by omega) (by omega)

/-- The chain from `chead.block`. -/
theorem chain : LinkPath c.sh.next c.sh.chead.block (c.sh.linked.drop g.ck) none := by
  obtain ⟨off, _, _, hblock, _⟩ := h.cpos
  rw [hblock]
  exact h.inv.chain.path_from fun k a hk ha => h.live hk ha

/-- A block in use is in the chain or in the pool. -/
theorem owner_cases (ha : g.owner a ≠ .free) :
    (∃ k, g.owner a = .chain k) ∨ c.sh.pool = some a := by
  cases ho : g.owner a with
  | free => exact absurd ho ha
  | chain k => exact Or.inl ⟨k, rfl⟩
  | held t => exact absurd ho (h.held a t)
  | pooled => exact Or.inr ((h.inv.pool_iff a).mp ho)

/-- Every position that was reserved has been published. -/
theorem published (hp : p < g.L.ppos) : ∃ v, g.L.prod p = .published (some v) := by
  obtain ⟨x, hx⟩ := h.inv.ledger.published_of_settled hp fun t v hc =>
    absurd (h.pending t p v hc) (by omega)
  cases x with
  | none => exact absurd (by rw [hx]; rfl) (h.inv.present p)
  | some v => exact ⟨v, hx⟩

end

end Resting

/-! ## The blocks of an iterator -/

/-- The first `n` blocks along the links. -/
def Shared.span (s : Shared T) : ℕ → Option Addr → List Addr
  | 0, _ => []
  | _, none => []
  | n + 1, some a => a :: s.span n (s.heap a).next

/-- The blocks in which an iterator has slots to read or to complete. -/
def Iter.blocks (cfg : Config) (s : Shared T) (it : Iter T) : List Addr :=
  s.span (divCeil (it.index + it.len) cfg.bl) it.block

theorem lt_divCeil {m a b : ℕ} (hb : 0 < b) : m < divCeil a b ↔ m * b < a := by
  unfold divCeil
  rw [← Nat.succ_le_iff, Nat.le_div_iff_mul_le hb, Nat.succ_mul]
  omega

/-- Along live blocks the links follow the tokens. -/
theorem span_eq (h : Inv cfg s g) {n k : ℕ}
    (hlive : ∀ j, k ≤ j → j < k + n → ∃ a, s.linked[j]? = some a ∧ g.owner a = .chain j) :
    s.span n s.linked[k]? = (s.linked.drop k).take n := by
  induction n generalizing k with
  | zero => rfl
  | succ n ih =>
    obtain ⟨a, ha, hown⟩ := hlive k (le_refl k) (by omega)
    have hlt : k < s.linked.length := (List.getElem?_eq_some_iff.mp ha).1
    have hget : s.linked[k] = a := (List.getElem?_eq_some_iff.mp ha).2
    have hnext : (s.heap a).next = s.linked[k + 1]? := h.chain.link a k hown
    rw [List.drop_eq_getElem_cons hlt, List.take_succ_cons, hget, ha]
    show a :: s.span n (s.heap a).next = _
    rw [hnext, ih fun j h1 h2 => hlive j (by omega) (by omega)]

namespace Resting

/-- The blocks that an open iterator covers, by their tokens. -/
theorem mem_blocks (h : Resting cfg c g) {it : Iter T} (hr : Reading cfg t c.sh g it k)
    : a ∈ it.blocks cfg c.sh ↔
      ∃ j, k ≤ j ∧ j * cfg.bl < k * cfg.bl + (it.index + it.len) ∧ g.owner a = .chain j := by
  obtain ⟨hblock, hlt, hi⟩ := hr.here
  have hspan : ∀ j, k ≤ j →
      (j < k + divCeil (it.index + it.len) cfg.bl ↔
        j * cfg.bl < k * cfg.bl + (it.index + it.len)) := by
    intro j hkj
    obtain ⟨m, rfl⟩ := Nat.exists_eq_add_of_le hkj
    have := lt_divCeil (m := m) (a := it.index + it.len) cfg.bl_pos
    rw [Nat.add_mul]
    omega
  have hleft := hr.left
  -- each of these blocks has a slot that is claimed
  have hlive : ∀ j, k ≤ j → j < k + divCeil (it.index + it.len) cfg.bl →
      ∃ a, c.sh.linked[j]? = some a ∧ g.owner a = .chain j := by
    intro j hkj hj
    rw [hspan j hkj] at hj
    have hheld : ∃ i < cfg.bl, g.L.cons (j * cfg.bl + i) = .claimed t := by
      rcases Nat.eq_or_lt_of_le hkj with rfl | hlt'
      · exact ⟨it.index, hi, hr.holds 0 hleft⟩
      · have hmul := Nat.mul_le_mul_right cfg.bl (Nat.succ_le_of_lt hlt')
        rw [Nat.succ_eq_add_one, succ_mul] at hmul
        refine ⟨0, cfg.bl_pos, ?_⟩
        have := hr.holds (j * cfg.bl - (k * cfg.bl + it.index)) (by omega)
        rwa [Nat.add_sub_cancel' (by omega)] at this
    obtain ⟨i, hi', hcell⟩ := hheld
    have hjlt : j * cfg.bl < c.sh.linked.length * cfg.bl := by
      have := claimed_lt_linked h.inv (p := j * cfg.bl + i) (by simp [hcell])
      omega
    have hget := List.getElem?_eq_getElem (token_lt_of_mul_lt cfg.bl hjlt)
    exact ⟨_, hget, live_of_not_done h.inv hget hi' (by simp [hcell])⟩
  unfold Iter.blocks
  rw [hblock, span_eq h.inv hlive, List.mem_iff_getElem?]
  constructor
  · rintro ⟨i, hget⟩
    rw [List.getElem?_take] at hget
    split at hget
    · rw [List.getElem?_drop] at hget
      obtain ⟨b, hb, hown⟩ := hlive (k + i) (by omega) (by omega)
      obtain rfl : b = a := Option.some.inj (hb.symm.trans hget)
      exact ⟨k + i, by omega, (hspan _ (by omega)).mp (by omega), hown⟩
    · cases hget
  · rintro ⟨j, hkj, hj, hown⟩
    refine ⟨j - k, ?_⟩
    have hin := (hspan j hkj).mpr hj
    rw [List.getElem?_take, if_pos (by omega), List.getElem?_drop, Nat.add_sub_cancel' hkj]
    exact h.inv.chain.place a j hown

/-- A position that is claimed and not completed belongs to an open iterator. -/
theorem exists_reading (h : Resting cfg c g) {p : ℕ} (hlt : p < g.L.cpos)
    (hd : g.L.cons p ≠ .done) : ∃ u it k, c.pc u = .iRead it ∧ Reading cfg u c.sh g it k ∧
      k * cfg.bl + (it.index - it.pending) ≤ p ∧ p < k * cfg.bl + (it.index + it.len) := by
  obtain ⟨u, hu⟩ : ∃ u, g.L.cons p = .claimed u ∨ g.L.cons p = .taken u := by
    cases hcell : g.L.cons p with
    | free => exact absurd ((h.inv.ledger.cons_free p).mp hcell) (by omega)
    | claimed u => exact ⟨u, Or.inl rfl⟩
    | taken u => exact ⟨u, Or.inr rfl⟩
    | done => exact absurd hcell hd
  rcases h.open_iter u with ⟨_, hcov⟩ | ⟨it, k, hpc, hr⟩
  · exact absurd (hcov p hu) (by omega)
  · have hcov := hr.covers p hu
    have := hr.pending_le
    exact ⟨u, it, k, hpc, hr, hcov.1, by omega⟩

end Resting

/-! ## The drop of the queue -/

/-- The loop of `UBQ::drop` along the chain; `none` if it does not end in `fuel`
rounds. -/
def Shared.dropChain (cfg : Config) : ℕ → Shared T → Option Addr → Option (Shared T)
  | _, s, none => some s
  | 0, _, some _ => none
  | fuel + 1, s, some a => Shared.dropChain cfg fuel (s.free cfg a) (s.heap a).next

/-- `UBQ::drop`: the chain from `chead.block`, then the pool. -/
def Shared.drop (cfg : Config) (fuel : ℕ) (s : Shared T) : Option (Shared T) :=
  (Shared.dropChain cfg fuel s s.chead.block).map fun s' =>
    match s'.pool with
    | none => s'
    | some a => s'.free cfg a

/-- `s'` is what is left when the queue has been dropped. -/
def Drops (cfg : Config) (s s' : Shared T) : Prop :=
  ∃ n, ∀ fuel, n ≤ fuel → s.drop cfg fuel = some s'

/-- Free the blocks of `l`, in order. -/
def Shared.freeAll (cfg : Config) (s : Shared T) (l : List Addr) : Shared T :=
  l.foldl (fun s a => s.free cfg a) s

/-- What freeing several blocks leaves alone, and what it drops. -/
theorem freeAll_spec (s : Shared T) (l : List Addr) :
    (s.freeAll cfg l).heap = s.heap ∧ (s.freeAll cfg l).pool = s.pool ∧
      (s.freeAll cfg l).log = s.log ∧
      (s.freeAll cfg l).dropped = s.dropped ++ l.flatMap fun a => (s.heap a).drops cfg := by
  induction l generalizing s with
  | nil => simp [Shared.freeAll]
  | cons a l ih =>
    obtain ⟨h1, h2, h3, h4⟩ := ih (s.free cfg a)
    refine ⟨h1, h2, h3, ?_⟩
    calc (s.freeAll cfg (a :: l)).dropped
        = (s.free cfg a).dropped ++ l.flatMap fun b => (s.heap b).drops cfg := h4
      _ = s.dropped ++ (a :: l).flatMap fun b => (s.heap b).drops cfg := by
        rw [List.flatMap_cons, ← List.append_assoc]
        rfl

/-- The loop frees the blocks of the chain. -/
theorem dropChain_eq {p : Option Addr} {l : List Addr} (h : LinkPath s.next p l none) {fuel : ℕ}
    (hfuel : l.length ≤ fuel) : Shared.dropChain cfg fuel s p = some (s.freeAll cfg l) := by
  induction l generalizing s p fuel with
  | nil =>
    obtain rfl : p = none := h
    cases fuel <;> rfl
  | cons a l ih =>
    obtain ⟨rfl, htail⟩ := h
    cases fuel with
    | zero => cases hfuel
    | succ fuel =>
      refine ih (s := s.free cfg a) htail ?_
      rw [List.length_cons] at hfuel
      omega

theorem drops_of_path {l : List Addr} (h : LinkPath s.next s.chead.block l none) :
    Drops cfg s (s.freeAll cfg (l ++ s.pool.toList)) := by
  refine ⟨l.length, fun fuel hfuel => ?_⟩
  unfold Shared.drop
  rw [dropChain_eq h hfuel, Option.map_some]
  have hpool : (s.freeAll cfg l).pool = s.pool := (freeAll_spec s l).2.1
  rw [hpool]
  unfold Shared.freeAll
  rw [List.foldl_append]
  cases s.pool <;> rfl

/-! ## The values of a block -/

/-- What `Block::free` drops, with the positions of the values. -/
def Block.leftovers (cfg : Config) (k : ℕ) (b : Block T) : List (ℕ × T) :=
  (List.range' b.consumed (cfg.bl - b.consumed)).filterMap fun i =>
    if (b.slots i).state = .written then (b.slots i).value.map (k * cfg.bl + i, ·) else none

theorem leftovers_drops (k : ℕ) (b : Block T) :
    (b.leftovers cfg k).map Prod.snd = b.drops cfg := by
  unfold Block.leftovers Block.drops
  rw [List.map_filterMap]
  apply List.filterMap_congr
  intro i _
  split
  · cases (b.slots i).value <;> rfl
  · rfl

theorem mem_leftovers {k p : ℕ} {b : Block T} : (p, v) ∈ b.leftovers cfg k ↔
    ∃ i, b.consumed ≤ i ∧ i < cfg.bl ∧ p = k * cfg.bl + i ∧ (b.slots i).Has (some v) := by
  unfold Block.leftovers
  rw [List.mem_filterMap]
  constructor
  · rintro ⟨i, hi, hv⟩
    rw [List.mem_range'_1] at hi
    split at hv
    · rename_i hst
      obtain ⟨w, hw, hpw⟩ := Option.map_eq_some_iff.mp hv
      obtain ⟨rfl, rfl⟩ := Prod.mk.inj hpw
      exact ⟨i, hi.1, by omega, rfl, hst, hw⟩
    · cases hv
  · rintro ⟨i, h1, h2, rfl, hst, hv⟩
    refine ⟨i, List.mem_range'_1.mpr ⟨h1, by omega⟩, ?_⟩
    rw [if_pos hst, hv]
    rfl

/-- The positions of one block, in increasing order. -/
theorem leftovers_sorted (k : ℕ) (b : Block T) :
    ((b.leftovers cfg k).map Prod.fst).Pairwise (· < ·) := by
  rw [List.pairwise_map]
  unfold Block.leftovers
  rw [List.pairwise_filterMap]
  refine (List.pairwise_lt_range' (s := b.consumed) (n := cfg.bl - b.consumed)).imp ?_
  intro i j hij x hx y hy
  have hpos : ∀ i (x : ℕ × T), (if (b.slots i).state = .written then
      (b.slots i).value.map (k * cfg.bl + i, ·) else none) = some x → x.1 = k * cfg.bl + i := by
    intro i x hx
    split at hx
    · obtain ⟨w, _, rfl⟩ := Option.map_eq_some_iff.mp hx
      rfl
    · cases hx
  rw [hpos i x hx, hpos j y hy]
  omega

/-- What the drop of the chain from token `j` on drops, with the positions. -/
def Shared.leftovers (cfg : Config) (s : Shared T) (j : ℕ) : List (ℕ × T) :=
  ((s.linked.drop j).zipIdx j).flatMap fun e => (s.heap e.1).leftovers cfg e.2

theorem chain_leftovers_drops (s : Shared T) (j : ℕ) : (s.leftovers cfg j).map Prod.snd
    = (s.linked.drop j).flatMap fun a => (s.heap a).drops cfg := by
  unfold Shared.leftovers
  rw [List.map_flatMap]
  simp only [leftovers_drops]
  conv_rhs => rw [← List.zipIdx_map_fst j (s.linked.drop j), List.flatMap_map]

theorem mem_chain_leftovers {j : ℕ} {e : ℕ × T} : e ∈ s.leftovers cfg j ↔
    ∃ k a, j ≤ k ∧ s.linked[k]? = some a ∧ e ∈ (s.heap a).leftovers cfg k := by
  unfold Shared.leftovers
  rw [List.mem_flatMap]
  constructor
  · rintro ⟨⟨a, k⟩, hmem, he⟩
    obtain ⟨hle, hget⟩ := List.mk_mem_zipIdx_iff_le_and_getElem?_sub.mp hmem
    rw [List.getElem?_drop, Nat.add_sub_cancel' hle] at hget
    exact ⟨k, a, hle, hget, he⟩
  · rintro ⟨k, a, hle, hget, he⟩
    refine ⟨(a, k), List.mk_mem_zipIdx_iff_le_and_getElem?_sub.mpr ⟨hle, ?_⟩, he⟩
    rwa [List.getElem?_drop, Nat.add_sub_cancel' hle]

theorem chain_leftovers_nodup (s : Shared T) (j : ℕ) :
    ((s.leftovers cfg j).map Prod.fst).Nodup := by
  suffices hsorted : ((s.leftovers cfg j).map Prod.fst).Pairwise (· < ·) from
    hsorted.imp Nat.ne_of_lt
  unfold Shared.leftovers
  rw [List.map_flatMap, List.pairwise_flatMap]
  refine ⟨fun e _ => leftovers_sorted e.2 _, ?_⟩
  have hidx : (((s.linked.drop j).zipIdx j).map Prod.snd).Pairwise (· < ·) := by
    rw [List.zipIdx_map_snd]
    exact List.pairwise_lt_range'
  refine (List.pairwise_map.mp hidx).imp fun {e e'} hlt p hp p' hp' => ?_
  -- the positions of a block lie below those of the next one
  obtain ⟨⟨p, v⟩, hmem, rfl⟩ := List.mem_map.mp hp
  obtain ⟨⟨p', v'⟩, hmem', rfl⟩ := List.mem_map.mp hp'
  obtain ⟨i, _, hi, rfl, _⟩ := mem_leftovers.mp hmem
  obtain ⟨i', _, _, rfl, _⟩ := mem_leftovers.mp hmem'
  have hmul := Nat.mul_le_mul_right cfg.bl (Nat.succ_le_of_lt hlt)
  rw [Nat.succ_eq_add_one, succ_mul] at hmul
  omega

/-! ## Each value once -/

namespace Resting

section

variable (h : Resting cfg c g)

include h

/-- What the drop leaves. -/
theorem drops : Drops cfg c.sh (c.sh.freeAll cfg (c.sh.linked.drop g.ck ++ c.sh.pool.toList)) :=
  drops_of_path h.chain

theorem dropped :
    (c.sh.freeAll cfg (c.sh.linked.drop g.ck ++ c.sh.pool.toList)).dropped
      = (c.sh.leftovers cfg g.ck).map Prod.snd := by
  have hpool : (c.sh.pool.toList.flatMap fun a => (c.sh.heap a).drops cfg) = [] := by
    cases hp : c.sh.pool with
    | none => rfl
    | some a => simpa using (h.inv.pool_clean a hp).1.drops
  rw [(freeAll_spec _ _).2.2.2, h.inv.dropped, List.flatMap_append, hpool,
    chain_leftovers_drops, List.nil_append, List.append_nil]

/-- A written slot of the chain holds the published value of its position. -/
theorem leftover_published
    (he : (p, v) ∈ c.sh.leftovers cfg g.ck) : g.L.prod p = .published (some v) := by
  obtain ⟨k, a, hk, ha, hmem⟩ := mem_chain_leftovers.mp he
  obtain ⟨i, _, hi, rfl, hst, hv⟩ := mem_leftovers.mp hmem
  have hcont := h.inv.content a k (h.live hk ha)
  by_contra hne
  by_cases hpub : ∃ x, g.L.prod (k * cfg.bl + i) = .published x
  · obtain ⟨x, hx⟩ := hpub
    have hhas := hcont.filled i x hi hx
    cases x with
    | none =>
      have hskip : ((c.sh.heap a).slots i).state = .skip := hhas
      simp [hst] at hskip
    | some w =>
      obtain rfl : w = v := Option.some.inj (hhas.2.symm.trans hv)
      exact hne hx
  · have hzero := hcont.blank i hi fun x hx => hpub ⟨x, hx⟩
    simp [hst] at hzero

/-- Without open iterators everything that was claimed is completed. -/
theorem done_of_idle (hidle : ∀ u, c.pc u = .idle) : g.L.cons p = .done ↔ p < g.L.cpos := by
  have hcov : ∀ u, g.L.Covers u 0 0 := by
    intro u
    rcases h.open_iter u with ⟨_, hc⟩ | ⟨it, k, hpc, _⟩
    · exact hc
    · simp [hidle u] at hpc
  constructor
  · intro hd
    exact h.inv.ledger.claimed_lt (by simp [hd])
  · intro hp
    cases hc : g.L.cons p with
    | free => exact absurd ((h.inv.ledger.cons_free p).mp hc) (by omega)
    | claimed u => exact absurd (hcov u p (Or.inl hc)) (by omega)
    | taken u => exact absurd (hcov u p (Or.inr hc)) (by omega)
    | done => rfl

/-- Without open iterators the counters are the lengths of the read prefixes. -/
theorem consumed_of_idle (hidle : ∀ u, c.pc u = .idle)
    (hk : g.ck ≤ k) (ha : c.sh.linked[k]? = some a) :
    (c.sh.heap a).consumed = g.L.cpos - k * cfg.bl := by
  obtain ⟨off, hlt, hpos, _⟩ := h.cpos
  have hmul := Nat.mul_le_mul_right cfg.bl hk
  rw [(h.inv.content a k (h.live hk ha)).consumed]
  apply tally_below (by omega)
  intro p h1 h2
  rw [Ledger.CCell.isDone_iff, h.done_of_idle hidle]
  omega

/-- Every unclaimed position is among the leftovers. -/
theorem exists_leftover (hidle : ∀ u, c.pc u = .idle)
    (hcp : g.L.cpos ≤ p) (hpp : p < g.L.ppos) : ∃ v, (p, v) ∈ c.sh.leftovers cfg g.ck := by
  obtain ⟨v, hv⟩ := h.published hpp
  refine ⟨v, mem_chain_leftovers.mpr ?_⟩
  have hdiv := Nat.div_add_mod p cfg.bl
  rw [Nat.mul_comm] at hdiv
  have hmod := Nat.mod_lt p cfg.bl_pos
  obtain ⟨off, hlt, hpos, _⟩ := h.cpos
  have hck : g.ck < p / cfg.bl + 1 := token_lt_of_mul_lt cfg.bl (by rw [succ_mul]; omega)
  have hst : g.stage ≠ .fresh := fun hc => by
    have := (h.inv.fresh hc).2.1
    omega
  have hph := h.inv.phead
  simp only [ProdHead, h.pown] at hph
  obtain ⟨off', _, hlt', _, hpos', _⟩ := hph
  have hpk : p / cfg.bl < g.pk + 1 := token_lt_of_mul_lt cfg.bl (by rw [succ_mul]; omega)
  have hlen := h.inv.pk_lt hst
  have hget := List.getElem?_eq_getElem (l := c.sh.linked) (i := p / cfg.bl) (by omega)
  have hle : g.ck ≤ p / cfg.bl := by omega
  refine ⟨p / cfg.bl, _, hle, hget, mem_leftovers.mpr ⟨p % cfg.bl, ?_, hmod, hdiv.symm, ?_⟩⟩
  · rw [h.consumed_of_idle hidle hle hget]
    omega
  · exact (h.inv.content _ _ (h.live hle hget)).filled _ _ hmod (hdiv.symm ▸ hv)

end

end Resting

/-! ## Leaked iterators

`Block::free` takes `consumed` for the length of a read prefix.  Of the blocks it sees only
the one of `chead` can have slots that were read, so an iterator that is leaked does harm
only there. -/

/-- Every iterator that is left open and still has slots in the block of `chead` stands
there at or beyond the completed slots and has nothing to count, or has not reached the
block and no slot of it is completed. -/
def Harmless (cfg : Config) (c : Conf T) : Prop :=
  ∀ u it b, c.pc u = .iRead it → c.sh.chead.block = some b → b ∈ it.blocks cfg c.sh →
    if it.block = some b then it.pending = 0 ∧ (c.sh.heap b).consumed ≤ it.index
    else (c.sh.heap b).consumed = 0

namespace Resting

section

variable (h : Resting cfg c g)

include h

/-- The block of `chead`, if there is one, is live. -/
theorem head_live (hb : c.sh.chead.block = some b) :
    c.sh.linked[g.ck]? = some b ∧ g.owner b = .chain g.ck := by
  obtain ⟨off, _, _, hblock, _⟩ := h.cpos
  have hget := hblock.symm.trans hb
  exact ⟨hget, h.live (le_refl _) hget⟩

/-- An open iterator with a slot in the block of `chead` covers that block, and stands in
it or before it. -/
theorem head_covered (hb : c.sh.chead.block = some b)
    {it : Iter T} (hr : Reading cfg u c.sh g it k)
    (h1 : k * cfg.bl + (it.index - it.pending) ≤ p) (h2 : p < k * cfg.bl + (it.index + it.len))
    (hp : g.ck * cfg.bl ≤ p) (hp' : p < g.ck * cfg.bl + cfg.bl) :
    b ∈ it.blocks cfg c.sh ∧ (k = g.ck ∧ it.block = some b ∨ k < g.ck ∧ it.block ≠ some b) := by
  obtain ⟨hget, hown⟩ := h.head_live hb
  have hk : k < g.ck + 1 := token_lt_of_mul_lt cfg.bl (by rw [succ_mul]; omega)
  refine ⟨(h.mem_blocks hr).mpr ⟨g.ck, by omega, by omega, hown⟩, ?_⟩
  rcases Nat.eq_or_lt_of_le (Nat.le_of_lt_succ hk) with rfl | hlt
  · exact Or.inl ⟨rfl, hr.here.1.trans hget⟩
  · refine Or.inr ⟨hlt, fun hsame => ?_⟩
    obtain ⟨a, hblk, _, hown'⟩ := reading_block h.inv hr
    obtain rfl : a = b := Option.some.inj (hblk.symm.trans hsame)
    have : k = g.ck := by simpa using hown'.symm.trans hown
    omega

/-- Harmless iterators leave a prefix: every slot of the block of `chead` that was read
lies below the counter. -/
theorem read_below (hH : Harmless cfg c)
    (hb : c.sh.chead.block = some b) (hp : g.ck * cfg.bl ≤ p) (hp' : p < g.ck * cfg.bl + cfg.bl)
    (hread : (∃ t, g.L.cons p = .taken t) ∨ g.L.cons p = .done) :
    p < g.ck * cfg.bl + (c.sh.heap b).consumed := by
  have hcount := (h.inv.content b g.ck (h.head_live hb).2).consumed
  obtain ⟨off, hoff, hpos, _⟩ := h.cpos
  have hcle : (c.sh.heap b).consumed ≤ off := by
    rw [hcount, tally_cut hoff.le fun q _ _ hd => ?_]
    · exact tally_le _ _ _
    · rw [← hpos]
      exact h.inv.ledger.claimed_lt (by simp [Ledger.CCell.isDone_iff.mp hd])
  rcases hread with ⟨t, htaken⟩ | hd
  · -- the iterator that took the slot stands in this block, with the slot to be counted
    have hlt := h.inv.ledger.claimed_lt (p := p) (by simp [htaken])
    obtain ⟨u, it, k, hpc, hr, hge, hend⟩ := h.exists_reading hlt (by simp [htaken])
    obtain ⟨hmem, hk⟩ := h.head_covered hb hr hge hend hp hp'
    have hit := hH u it b hpc hb hmem
    have hidx := hr.here.2.2
    have hbelow : p < k * cfg.bl + it.index := by
      by_contra hc
      have hheld := hr.holds (p - (k * cfg.bl + it.index)) (by omega)
      rw [Nat.add_sub_cancel' (by omega), htaken] at hheld
      cases hheld
    rcases hk with ⟨rfl, hsame⟩ | ⟨hlt, _⟩
    · rw [if_pos hsame] at hit
      omega
    · have hmul := Nat.mul_le_mul_right cfg.bl (Nat.succ_le_of_lt hlt)
      rw [Nat.succ_eq_add_one, succ_mul] at hmul
      omega
  · rw [hcount]
    refine lt_of_tally_prefix (fun q h1 h2 => ?_) hp hp' (Ledger.CCell.isDone_iff.mpr hd)
    -- a slot below the counter that is not completed would belong to an open iterator
    rw [← hcount] at h2
    rw [Ledger.CCell.isDone_iff]
    by_contra hnot
    obtain ⟨u, it, k, hpc, hr, hge, hend⟩ := h.exists_reading (p := q) (by omega) hnot
    obtain ⟨hmem, hk⟩ := h.head_covered hb hr hge hend h1 (by omega)
    have hit := hH u it b hpc hb hmem
    rcases hk with ⟨rfl, hsame⟩ | ⟨_, hother⟩
    · rw [if_pos hsame] at hit
      omega
    · rw [if_neg hother] at hit
      omega

/-- If every slot of the block of `chead` that was read lies below the counter, the open
iterators are harmless. -/
theorem harmless_of_read_below
    (hread : ∀ b p, c.sh.chead.block = some b → g.ck * cfg.bl ≤ p →
      p < g.ck * cfg.bl + cfg.bl → ((∃ t, g.L.cons p = .taken t) ∨ g.L.cons p = .done) →
      p < g.ck * cfg.bl + (c.sh.heap b).consumed) : Harmless cfg c := by
  intro u it b hpc hb hmem
  have hown := (h.head_live hb).2
  have hcount := (h.inv.content b g.ck hown).consumed
  have hle := tally_le (fun p => (g.L.cons p).isDone) (g.ck * cfg.bl) cfg.bl
  have hall : ∀ p, g.ck * cfg.bl ≤ p → p < g.ck * cfg.bl + (c.sh.heap b).consumed →
      g.L.cons p = .done := by
    intro p h1 h2
    refine Ledger.CCell.isDone_iff.mp ( tally_eq_prefix (hcount ▸ hle) (fun q h3 h4 hd => ?_)
      hcount.le p h1 h2)
    exact hread b q hb h3 h4 (Or.inr (Ledger.CCell.isDone_iff.mp hd))
  rcases h.open_iter u with ⟨hidle, _⟩ | ⟨it', k, hpc', hr⟩
  · simp [hidle] at hpc
  obtain rfl : it' = it := by simpa using hpc'.symm.trans hpc
  obtain ⟨j, hkj, hj, hownj⟩ := (h.mem_blocks hr).mp hmem
  obtain rfl : j = g.ck := by simpa using hownj.symm.trans hown
  obtain ⟨a, hblk, _, howna⟩ := reading_block h.inv hr
  have hidx := hr.here.2.2
  split
  · rename_i hsame
    obtain rfl : a = b := Option.some.inj (hblk.symm.trans hsame)
    obtain rfl : k = g.ck := by simpa using howna.symm.trans hown
    have hheld := hr.holds 0 hr.left
    constructor
    · by_contra hpend
      have htaken := hr.taken.cell (q := g.ck * cfg.bl + (it'.index - 1))
        (by have := hr.pending_le; omega) (by have := hr.pending_le; omega)
      have hlt := hread a _ hb (by omega) (by omega) (Or.inl ⟨u, htaken⟩)
      rw [hall _ (by omega) hlt] at htaken
      cases htaken
    · by_contra hgt
      rw [Nat.add_zero, hall _ (by omega) (by omega)] at hheld
      cases hheld
  · rename_i hother
    have hlt : k < g.ck := by
      refine lt_of_le_of_ne hkj fun hc => hother ?_
      rw [hblk, (h.inv.chain.place a k howna).symm.trans (hc ▸ h.inv.chain.place b g.ck hown)]
    have hmul := Nat.mul_le_mul_right cfg.bl (Nat.succ_le_of_lt hlt)
    rw [Nat.succ_eq_add_one, succ_mul] at hmul
    by_contra hpos
    have hheld := hr.holds (g.ck * cfg.bl - (k * cfg.bl + it'.index)) (by omega)
    rw [Nat.add_sub_cancel' (by omega), hall _ (le_refl _) (by omega)] at hheld
    cases hheld

/-- Harmless iterators, no position is both handed out and left over. -/
theorem leftover_not_delivered (hH : Harmless cfg c)
    (he : (p, v) ∈ c.sh.leftovers cfg g.ck) {e : Tid × ℕ × Option T}
    (hd : e ∈ c.sh.log.delivered) : e.2.1 ≠ p := by
  rintro rfl
  obtain ⟨k, a, hk, ha, hin⟩ := mem_chain_leftovers.mp he
  obtain ⟨i, hci, hi, hp, _⟩ := mem_leftovers.mp hin
  have hread := (h.inv.log.deliv e hd).2
  have hlt := h.inv.ledger.claimed_lt (p := e.2.1) (by rcases hread with hc | hc <;> simp [hc])
  obtain ⟨off, hoff, hpos, hblock, _⟩ := h.cpos
  rcases Nat.eq_or_lt_of_le hk with rfl | hlt'
  · have := h.read_below hH (hblock.trans ha) (by omega) (by omega)
      (hread.imp (fun hc => ⟨e.1, hc⟩) id)
    omega
  · have hmul := Nat.mul_le_mul_right cfg.bl (Nat.succ_le_of_lt hlt')
    rw [Nat.succ_eq_add_one, succ_mul] at hmul
    omega

/-- A slot of the block of `chead` that was read and is not below the counter is handed
out and dropped. -/
theorem delivered_and_left (hb : c.sh.chead.block = some b)
    (hp : g.ck * cfg.bl + (c.sh.heap b).consumed ≤ p) (hp' : p < g.ck * cfg.bl + cfg.bl)
    (hread : (∃ t, g.L.cons p = .taken t) ∨ g.L.cons p = .done) :
    ∃ v, some v ∈ c.sh.log.received ∧ v ∈ (c.sh.leftovers cfg g.ck).map Prod.snd := by
  obtain ⟨hget, hown⟩ := h.head_live hb
  obtain ⟨e, he, rfl⟩ := h.inv.log.deliv_mem p hread
  have hlt := h.inv.ledger.claimed_lt (p := e.2.1)
    (by rcases hread with ⟨t, hc⟩ | hc <;> simp [hc])
  obtain ⟨v, hv⟩ := h.published (lt_of_lt_of_le hlt h.inv.cpos_le)
  have hval : e.2.2 = some v := by
    simpa using (h.inv.log.deliv e he).1.symm.trans hv
  refine ⟨v, List.mem_map.mpr ⟨e, he, hval⟩, List.mem_map.mpr ⟨(e.2.1, v), ?_, rfl⟩⟩
  refine mem_chain_leftovers.mpr ⟨g.ck, b, le_refl _, hget, mem_leftovers.mpr
    ⟨e.2.1 - g.ck * cfg.bl, by omega, by omega, by omega, ?_⟩⟩
  refine (h.inv.content b g.ck hown).filled _ _ (by omega) ?_
  rwa [Nat.add_sub_cancel' (by omega)]

end

end Resting

/-- **Each value is handed out or dropped once.**  A single caller with any number of open
iterators, and requests of at most `usize::MAX + 1 - BL` values, drops the queue.  If the
iterators that are left open are harmless, no value is handed out or dropped more often
than it was pushed, and for distinct values this is the only way; if every iterator is
finished, each value is handed out or dropped exactly once. -/
theorem dropped_once {c : Conf T} (hc : FitSerial cfg m c) (hrest : ∀ u, (c.pc u).atRest = true) :
    ∃ s', Drops cfg c.sh s' ∧
      (Harmless cfg c → (c.sh.log.received ++ s'.dropped.map some).Subperm c.sh.log.sent) ∧
      (c.sh.log.sent.Nodup → (c.sh.log.received ++ s'.dropped.map some).Subperm c.sh.log.sent →
        Harmless cfg c) ∧
      ((∀ u, c.pc u = .idle) → (c.sh.log.received ++ s'.dropped.map some).Perm c.sh.log.sent) := by
  obtain ⟨g, h⟩ := hc.resting hrest
  refine ⟨_, h.drops, ?_⟩
  rw [h.dropped]
  have hmap : ((c.sh.leftovers cfg g.ck).map Prod.snd).map some
      = ((c.sh.leftovers cfg g.ck).map fun e => (e.1, some e.2)).map Prod.snd := by
    rw [List.map_map, List.map_map]
    rfl
  have hnd : (((c.sh.leftovers cfg g.ck).map fun e => (e.1, some e.2)).map Prod.fst).Nodup := by
    rw [List.map_map]
    exact chain_leftovers_nodup c.sh g.ck
  have hval : ∀ e ∈ (c.sh.leftovers cfg g.ck).map fun e => (e.1, some e.2),
      g.L.prod e.1 = .published e.2 := by
    intro e he
    obtain ⟨⟨p, v⟩, hmem, rfl⟩ := List.mem_map.mp he
    exact h.leftover_published hmem
  have hout : Harmless cfg c → ∀ e ∈ (c.sh.leftovers cfg g.ck).map fun e => (e.1, some e.2),
      ∀ e' ∈ c.sh.log.delivered, e'.2.1 ≠ e.1 := by
    intro hH e he e' he'
    obtain ⟨⟨p, v⟩, hmem, rfl⟩ := List.mem_map.mp he
    exact h.leftover_not_delivered hH hmem he'
  refine ⟨fun hH => ?_, fun hsent hsub => ?_, fun hidle => ?_⟩
  · rw [hmap]
    exact h.inv.log.subperm_rest h.inv.ledger hnd hval (hout hH)
  · -- a value that is handed out and dropped would occur twice
    refine h.harmless_of_read_below fun b p hb hp hp' hread => ?_
    by_contra hge
    obtain ⟨v, hrec, hleft⟩ := h.delivered_and_left hb (by omega) hp' hread
    obtain ⟨l, hperm, hl⟩ := hsub
    have hdisj := (List.nodup_append'.mp (hperm.nodup_iff.mp (hl.nodup hsent))).2.2
    exact hdisj hrec (List.mem_map.mpr ⟨v, hleft, rfl⟩)
  · have hH : Harmless cfg c := fun u it b hpc => by simp [hidle u] at hpc
    rw [hmap]
    refine h.inv.log.perm_rest h.inv.ledger hnd hval (hout hH) fun p hp => ?_
    by_cases hcp : p < g.L.cpos
    · exact Or.inl (h.inv.log.deliv_mem p (Or.inr ((h.done_of_idle hidle).mpr hcp)))
    · obtain ⟨v, hv⟩ := h.exists_leftover hidle (by omega) hp
      exact Or.inr ⟨(p, some v), List.mem_map.mpr ⟨(p, v), hv, rfl⟩, rfl⟩

/-- Push 7 and 8, and claim them with one iterator each: thread 1 has claimed 7,
thread 2 has claimed and read 8. -/
def twoIterators : List (Tid × Act ℕ) :=
  calls 0 (.pushBatch [7, 8]) 2 ++ [(0, .alloc [100])] ++ steps 0 6 ++
    calls 1 (.popBatch 1 1) 5 ++ calls 2 (.popBatch 1 1) 7

/-- The iterators are finished in the reverse order of their claims, 9 is pushed,
and the queue is dropped. -/
theorem dropped_once_two_iterators : ∃ c : Conf ℕ, FitSerial eightSlots usizeMax c ∧
    (∀ u, c.pc u = .idle) ∧ c.sh.log.received = [some 8, some 7] ∧
    ∃ s', Drops eightSlots c.sh s' ∧
      (c.sh.log.received ++ s'.dropped.map some).Perm [some 7, some 8, some 9] := by
  obtain ⟨c, hexec, h0, h1, h2, hrec, hsent⟩ : ∃ c, serially eightSlots usizeMax
      (fun _ _ _ _ pc' => Fitting eightSlots usizeMax pc')
      (twoIterators ++ steps 1 2 ++ calls 0 (.pushBatch [9]) 4) = some c ∧
      c.pc 0 = .idle ∧ c.pc 1 = .idle ∧ c.pc 2 = .idle ∧
      c.sh.log.received = [some 8, some 7] ∧ c.sh.log.sent = [some 7, some 8, some 9] :=
    ⟨_, rfl, rfl, rfl, rfl, by decide +kernel, by decide +kernel⟩
  obtain ⟨hc, hothers⟩ := serially_serial hexec (by decide +kernel)
  have hidle : ∀ u, c.pc u = .idle
    | 0 => h0
    | 1 => h1
    | 2 => h2
    | u + 3 => hothers _ (Nat.le_add_left 3 u)
  obtain ⟨s', hdrops, _, _, hperm⟩ := dropped_once hc fun u => by rw [hidle u]; rfl
  exact ⟨c, hc, hidle, hrec, s', hdrops, hsent ▸ hperm hidle⟩

/-- **A leaked iterator makes the drop drop a value twice.**  Push 7 and 8, claim
both with one iterator, take 7 from it, leak it and drop the queue: 7 was handed
out and is dropped. -/
theorem leaked_iterator : ∃ (c : Conf ℕ) (s' : Shared ℕ), FitSerial eightSlots usizeMax c ∧
    (∀ u, (c.pc u).atRest = true) ∧ c.sh.log.sent = [some 7, some 8] ∧
    Drops eightSlots c.sh s' ∧ c.sh.log.received = [some 7] ∧ s'.dropped = [7, 8] ∧
    ¬ (c.sh.log.received ++ s'.dropped.map some).Subperm c.sh.log.sent := by
  obtain ⟨c, hexec, h0, h1, h2, hsent, hrec, hhead, hnext, hdrops⟩ : ∃ c,
      serially eightSlots usizeMax (fun _ _ _ _ pc' => Fitting eightSlots usizeMax pc')
      (calls 0 (.pushBatch [7, 8]) 2 ++ [(0, .alloc [100])] ++ steps 0 6 ++
        calls 1 (.popBatch 2 2) 6) = some c ∧
      (c.pc 0).atRest = true ∧ (c.pc 1).atRest = true ∧ (c.pc 2).atRest = true ∧
      c.sh.log.sent = [some 7, some 8] ∧ c.sh.log.received = [some 7] ∧
      c.sh.chead.block = some 100 ∧ c.sh.next 100 = none ∧
      (c.sh.freeAll eightSlots ([100] ++ c.sh.pool.toList)).dropped = [7, 8] :=
    ⟨_, rfl, by decide +kernel, by decide +kernel, by decide +kernel, by decide +kernel,
      by decide +kernel, by decide +kernel, by decide +kernel, by decide +kernel⟩
  obtain ⟨hc, hothers⟩ := serially_serial hexec (by decide +kernel)
  have hrest : ∀ u, (c.pc u).atRest = true
    | 0 => h0
    | 1 => h1
    | 2 => h2
    | u + 3 => by rw [hothers _ (Nat.le_add_left 3 u)]; rfl
  have hpath : LinkPath c.sh.next c.sh.chead.block [100] none := ⟨hhead, hnext⟩
  refine ⟨c, _, hc, hrest, hsent, drops_of_path hpath, hrec, hdrops, ?_⟩
  rw [hrec, hdrops, hsent]
  intro hsub
  exact absurd hsub.length_le (by decide)

end Mpmc
