/-
# Where the blocks of the MPMC queue are

Between two operations of a single caller every block that was ever allocated is
in exactly one place: in the chain from `chead.block`, behind `chead` in an open
reservation, in the pool, or freed (`Lies`).  A block leaves the first two places
with the completion of its last slot.  The counter of a run is the number of its
blocks in use, and a run goes back once, with its last block.  After the drop of
the queue every block has been freed, and freed once.

An address may be allocated again after it was freed.  `made` and `gone` list the
blocks in the order in which they were initialised and freed, so the block that
lives at an address is freed when the address occurs as often in both.
-/
import Ubq.Mpmc.Teardown

namespace Mpmc

variable {T : Type*} {cfg : Config} {t u : Tid} {s s' : Shared T} {g g' : Ghost T} {c : Conf T}
variable {m : ℕ} {a : Addr} {owner : Addr → Own Tid}

/-! ## Places -/

/-- The block was linked before the block of `chead`. -/
def Behind (s : Shared T) (a : Addr) : Prop :=
  ∃ b, s.chead.block = some b ∧ tokenOf s.linked a < tokenOf s.linked b

/-- An open iterator covers the block. -/
def Covered (cfg : Config) (c : Conf T) (a : Addr) : Prop :=
  ∃ u it, c.pc u = .iRead it ∧ a ∈ it.blocks cfg c.sh

/-- Where a block can be. -/
inductive Place
  | chain
  | reserved
  | pool
  | freed

/-- The block at address `a` is at the place. -/
def Lies (cfg : Config) (c : Conf T) (a : Addr) : Place → Prop
  | .chain => ∃ l, LinkPath c.sh.next c.sh.chead.block l none ∧ a ∈ l
  | .reserved => Behind c.sh a ∧ Covered cfg c a
  | .pool => c.sh.pool = some a
  | .freed => c.sh.arena.gone.count a = c.sh.arena.made.count a

/-- The slot at position `p` is completed: it was read, and no open iterator has
yet to count it. -/
def Completed (c : Conf T) (p : ℕ) : Prop :=
  (∃ e ∈ c.sh.log.delivered, e.2.1 = p) ∧ ∀ u it, c.pc u = .iRead it →
    ¬ (it.base + it.out.length - it.pending ≤ p ∧ p < it.base + it.out.length)

/-- The block that was linked under token `k` is still in the chain or in a
reservation. -/
def Present (cfg : Config) (c : Conf T) (k : ℕ) (a : Addr) : Prop :=
  tokenOf c.sh.linked a = k ∧ (Lies cfg c a .chain ∨ Lies cfg c a .reserved)

/-- Every block is in one place, and present until its last slot is completed. -/
structure Exact (cfg : Config) (c : Conf T) : Prop where
  place : ∀ a ∈ c.sh.arena.made, ∃! p, Lies cfg c a p
  once : ∀ a, c.sh.arena.gone.count a ≤ c.sh.arena.made.count a ∧
    c.sh.arena.made.count a ≤ c.sh.arena.gone.count a + 1
  leaves : ∀ k a, c.sh.linked[k]? = some a →
    (Present cfg c k a ↔ ∃ i < cfg.bl, ¬ Completed c (k * cfg.bl + i))

/-- The counter of a run is the number of its blocks in use, and it is returned
once, with the last of them. -/
structure RunsExact (s : Shared T) : Prop where
  remaining : ∀ r, r < s.arena.runCount → (s.arena.runs r).remaining
    = (s.arena.runs r).members.countP fun b =>
      decide (s.arena.gone.count b < s.arena.made.count b) && (s.heap b).run == some r
  nodup : s.arena.released.Nodup
  released_iff : ∀ r, r ∈ s.arena.released ↔
    r < s.arena.runCount ∧ (s.arena.runs r).remaining = 0

/-- Every block has been freed once, every run returned, and no page is out. -/
structure AllFreed (s : Shared T) : Prop where
  freed : ∀ a, s.arena.gone.count a = s.arena.made.count a
  released : ∀ r, r < s.arena.runCount → r ∈ s.arena.released
  returned : ∀ a, s.arena.allocated a = false

/-! ## Runs -/

theorem Pages.inUse_eq (h : Pages s.arena s.runOf owner) (a : Addr) :
    Own.inUse (owner a) = decide (s.arena.gone.count a < s.arena.made.count a) := by
  have hcount := h.count a
  cases ho : Own.inUse (owner a) with
  | false =>
    rw [ho] at hcount
    symm
    rw [decide_eq_false_iff_not]
    simp only [Bool.toNat_false] at hcount
    omega
  | true =>
    rw [ho] at hcount
    symm
    rw [decide_eq_true_iff]
    simp only [Bool.toNat_true] at hcount
    omega

theorem Pages.runsExact (h : Pages s.arena s.runOf owner) : RunsExact s where
  remaining := fun r hr => by
    rw [h.remaining r hr]
    apply List.countP_congr
    intro b _
    rw [h.inUse_eq b]
    rfl
  nodup := h.released_nodup
  released_iff := h.released_iff

theorem Pages.freeAll (h : Pages s.arena s.runOf owner) {l : List Addr}
    (hnd : l.Nodup) (hl : ∀ a ∈ l, owner a ≠ .free) :
    Pages (s.freeAll cfg l).arena (s.freeAll cfg l).runOf
      (fun a => if a ∈ l then .free else owner a) := by
  induction l generalizing s owner with
  | nil => simpa [Shared.freeAll] using h
  | cons a l ih =>
    obtain ⟨hal, hnd⟩ := List.nodup_cons.mp hnd
    have hne : ∀ b ∈ l, b ≠ a := fun b hb hc => hal (hc ▸ hb)
    have hfree := h.free cfg (hl a (by simp))
    have hrest := ih hfree hnd fun b hb => by
      rw [Function.update_of_ne (hne b hb)]
      exact hl b (by simp [hb])
    refine hrest.congr fun b => ?_
    by_cases hba : b = a
    · subst hba
      simp
    · simp [hba]

/-- Pages that nobody owns are all returned. -/
theorem Pages.allFreed (h : Pages s.arena s.runOf owner)
    (hfree : ∀ a, owner a = .free) : AllFreed s := by
  have hzero : ∀ r, r < s.arena.runCount → (s.arena.runs r).remaining = 0 := by
    intro r hr
    rw [h.remaining r hr, List.countP_eq_zero]
    intro b _
    simp [hfree b]
  refine ⟨fun a => ?_, fun r hr => (h.released_iff r).mpr ⟨hr, hzero r hr⟩, fun a => ?_⟩
  · have := h.count a
    rw [hfree a] at this
    exact this.symm
  · by_contra hal
    obtain ⟨r, _, hr, hpos, _⟩ := h.single a (hfree a) (by simpa using hal)
    simp [hzero r hr] at hpos

namespace Resting

/-- Completed positions, in terms of the ledger. -/
theorem completed_iff (h : Resting cfg c g) {p : ℕ} : Completed c p ↔ g.L.cons p = .done := by
  constructor
  · rintro ⟨⟨e, he, rfl⟩, hpend⟩
    by_contra hd
    have htaken := (h.inv.log.deliv e he).2.resolve_right hd
    rcases h.open_iter e.1 with ⟨_, hcov⟩ | ⟨it, k, hpc, hr⟩
    · exact absurd (hcov _ (Or.inr htaken)) (by omega)
    · have hcov := hr.covers _ (Or.inr htaken)
      have hple := hr.pending_le
      have hpos := hr.pos
      refine hpend e.1 it hpc ⟨by omega, ?_⟩
      by_contra hge
      have hheld := hr.holds (e.2.1 - (k * cfg.bl + it.index)) (by omega)
      rw [Nat.add_sub_cancel' (by omega), htaken] at hheld
      exact absurd hheld (by simp)
  · intro hd
    refine ⟨h.inv.log.deliv_mem p (Or.inr hd), fun u it hpc hp => ?_⟩
    rcases h.open_iter u with ⟨hidle, _⟩ | ⟨it', k, hpc', hr⟩
    · simp [hidle] at hpc
    · obtain rfl : it' = it := by simpa using hpc'.symm.trans hpc
      have hple := hr.pending_le
      have hpos := hr.pos
      have htaken := hr.taken.cell (q := p) (by omega) (by omega)
      simp [hd] at htaken

/-! ## The owner and the place -/

section

variable (h : Resting cfg c g)

include h

theorem lies_chain_iff : Lies cfg c a .chain ↔ ∃ k, g.ck ≤ k ∧ g.owner a = .chain k := by
  constructor
  · rintro ⟨l, hl, ha⟩
    rw [path_unique hl h.chain] at ha
    obtain ⟨i, hi⟩ := List.mem_iff_getElem?.mp ha
    rw [List.getElem?_drop] at hi
    exact ⟨g.ck + i, by omega, h.live (by omega) hi⟩
  · rintro ⟨k, hk, hown⟩
    refine ⟨_, h.chain, List.mem_of_getElem? (i := k - g.ck) ?_⟩
    rw [List.getElem?_drop, Nat.add_sub_cancel' hk]
    exact h.inv.chain.place a k hown

/-- The block of `chead`, and its token. -/
theorem chead_token {b : Addr} (hb : c.sh.chead.block = some b) :
    tokenOf c.sh.linked b = g.ck := by
  obtain ⟨off, _, _, hblock, _⟩ := h.cpos
  rw [hblock] at hb
  exact h.inv.chain.tokenOf (h.live (le_refl _) hb)

theorem lies_reserved_iff : Lies cfg c a .reserved ↔ ∃ k, k < g.ck ∧ g.owner a = .chain k := by
  constructor
  · rintro ⟨⟨b, hb, hlt⟩, u, it, hpc, hmem⟩
    rcases h.open_iter u with ⟨hidle, _⟩ | ⟨it', k, hpc', hr⟩
    · simp [hidle] at hpc
    · obtain rfl : it' = it := by simpa using hpc'.symm.trans hpc
      obtain ⟨j, _, _, hown⟩ := (h.mem_blocks hr).mp hmem
      rw [h.chead_token hb, h.inv.chain.tokenOf hown] at hlt
      exact ⟨j, hlt, hown⟩
  · rintro ⟨k, hk, hown⟩
    have hmul := Nat.mul_le_mul_right cfg.bl (Nat.succ_le_of_lt hk)
    rw [Nat.succ_eq_add_one, succ_mul] at hmul
    obtain ⟨off, _, hpos, hblock, hready, _⟩ := h.cpos
    constructor
    · have hlen : g.ck < c.sh.linked.length := by
        have hst : g.stage ≠ .fresh := by
          rw [hready (by omega)]
          simp
        exact lt_of_le_of_lt h.inv.ck_le (h.inv.pk_lt hst)
      have hget := List.getElem?_eq_getElem hlen
      refine ⟨_, hblock.trans hget, ?_⟩
      rwa [h.chead_token (hblock.trans hget), h.inv.chain.tokenOf hown]
    · -- some slot of the block is not completed, and an iterator has it
      have hcount := (h.inv.content a k hown).consumed
      have hlt := h.inv.unfinished a k hown
      have hex : ∃ p, k * cfg.bl ≤ p ∧ p < k * cfg.bl + cfg.bl ∧ g.L.cons p ≠ .done := by
        by_contra hno
        have hall := tally_eq_iff.mpr fun p h1 h2 => Ledger.CCell.isDone_iff.mpr <| by
          by_contra hd
          exact hno ⟨p, h1, h2, hd⟩
        omega
      obtain ⟨p, h1, h2, hd⟩ := hex
      obtain ⟨u, it, j, hpc, hr, hle, hplt⟩ := h.exists_reading (by omega) hd
      have hjk : j < k + 1 := token_lt_of_mul_lt cfg.bl (by rw [succ_mul]; omega)
      exact ⟨u, it, hpc, (h.mem_blocks hr).mpr ⟨k, by omega, by omega, hown⟩⟩

theorem lies_freed_iff : Lies cfg c a .freed ↔ g.owner a = .free := by
  have hcount := h.inv.pages.count a
  rw [← inUse_eq_false]
  show c.sh.arena.gone.count a = c.sh.arena.made.count a ↔ _
  cases ho : Own.inUse (g.owner a) <;> rw [ho] at hcount <;> simp at hcount ⊢ <;> omega

/-- A block in the chain of the owners is in the chain or in a reservation. -/
theorem present_iff {k : ℕ} : Present cfg c k a ↔ g.owner a = .chain k := by
  constructor
  · rintro ⟨htok, hlies⟩
    obtain ⟨j, hown⟩ : ∃ j, g.owner a = .chain j := by
      rcases hlies with hl | hl
      · obtain ⟨j, _, hown⟩ := h.lies_chain_iff.mp hl
        exact ⟨j, hown⟩
      · obtain ⟨j, _, hown⟩ := h.lies_reserved_iff.mp hl
        exact ⟨j, hown⟩
    rw [h.inv.chain.tokenOf hown] at htok
    rwa [← htok]
  · intro hown
    refine ⟨h.inv.chain.tokenOf hown, ?_⟩
    by_cases hk : g.ck ≤ k
    · exact Or.inl (h.lies_chain_iff.mpr ⟨k, hk, hown⟩)
    · exact Or.inr (h.lies_reserved_iff.mpr ⟨k, by omega, hown⟩)

/-- **Exactly one place.** -/
theorem existsUnique_place (a : Addr) : ∃! p, Lies cfg c a p := by
  have hpool : Lies cfg c a .pool ↔ g.owner a = .pooled := (h.inv.pool_iff a).symm
  have hcases : ∀ p, Lies cfg c a p ↔ match p with
      | .chain => ∃ k, g.ck ≤ k ∧ g.owner a = .chain k
      | .reserved => ∃ k, k < g.ck ∧ g.owner a = .chain k
      | .pool => g.owner a = .pooled
      | .freed => g.owner a = .free := by
    intro p
    cases p with
    | chain => exact h.lies_chain_iff
    | reserved => exact h.lies_reserved_iff
    | pool => exact hpool
    | freed => exact h.lies_freed_iff
  simp only [hcases]
  cases ho : g.owner a with
  | free => exact ⟨.freed, rfl, fun p hp => by cases p <;> simp_all⟩
  | held t => exact absurd ho (h.held a t)
  | pooled => exact ⟨.pool, rfl, fun p hp => by cases p <;> simp_all⟩
  | chain k =>
    by_cases hk : g.ck ≤ k
    · refine ⟨.chain, ⟨k, hk, rfl⟩, fun p hp => ?_⟩
      cases p with
      | chain => rfl
      | reserved =>
        obtain ⟨j, hj, hown⟩ := hp
        obtain rfl : k = j := by simpa using hown
        omega
      | pool | freed => cases hp
    · refine ⟨.reserved, ⟨k, by omega, rfl⟩, fun p hp => ?_⟩
      cases p with
      | reserved => rfl
      | chain =>
        obtain ⟨j, hj, hown⟩ := hp
        obtain rfl : k = j := by simpa using hown
        omega
      | pool | freed => cases hp

theorem exact : Exact cfg c := by
  refine ⟨fun a _ => h.existsUnique_place a, fun a => ?_, fun k a ha => ?_⟩
  · have hcount := h.inv.pages.count a
    have hle := Bool.toNat_le (Own.inUse (g.owner a))
    omega
  · rw [h.present_iff]
    constructor
    · intro hown
      by_contra hall
      have hdone : ∀ p, k * cfg.bl ≤ p → p < k * cfg.bl + cfg.bl →
          (g.L.cons p).isDone = true := by
        intro p h1 h2
        rw [Ledger.CCell.isDone_iff, ← h.completed_iff]
        by_contra hp
        refine hall ⟨p - k * cfg.bl, by omega, ?_⟩
        rwa [Nat.add_sub_cancel' h1]
      have hlt := h.inv.unfinished a k hown
      rw [(h.inv.content a k hown).consumed, tally_eq_iff.mpr hdone] at hlt
      exact absurd hlt (lt_irrefl _)
    · rintro ⟨i, hi, hnot⟩
      rw [h.completed_iff] at hnot
      exact live_of_not_done h.inv ha hi hnot

/-- After the drop nobody owns a block. -/
theorem allFreed (hidle : ∀ u, c.pc u = .idle) :
    Pages (c.sh.freeAll cfg (c.sh.linked.drop g.ck ++ c.sh.pool.toList)).arena
      (c.sh.freeAll cfg (c.sh.linked.drop g.ck ++ c.sh.pool.toList)).runOf (fun _ => .free) := by
  have hchain : ∀ i a, (c.sh.linked.drop g.ck)[i]? = some a → g.owner a = .chain (g.ck + i) := by
    intro i a hi
    rw [List.getElem?_drop] at hi
    exact h.live (by omega) hi
  have hpool : ∀ a ∈ c.sh.pool.toList, g.owner a = .pooled := by
    intro a ha
    exact (h.inv.pool_iff a).mpr (by simpa using ha)
  have hnd : (c.sh.linked.drop g.ck ++ c.sh.pool.toList).Nodup := by
    rw [List.nodup_append']
    refine ⟨?_, by cases c.sh.pool <;> simp, fun a ha hp => ?_⟩
    · exact ChainWF.nodup_drop fun k a hk ha => h.live hk ha
    · obtain ⟨i, hi⟩ := List.mem_iff_getElem?.mp ha
      have := hchain i a hi
      simp [hpool a hp] at this
  refine (h.inv.pages.freeAll hnd fun a ha => ?_).congr fun a => ?_
  · rcases List.mem_append.mp ha with ha | ha
    · obtain ⟨i, hi⟩ := List.mem_iff_getElem?.mp ha
      simp [hchain i a hi]
    · simp [hpool a ha]
  · -- a block behind `chead` would be finished, so it is not in the chain
    refine iff_of_true rfl ?_
    split
    · rfl
    · rename_i hnot
      by_contra hfree
      rcases h.owner_cases hfree with ⟨k, hown⟩ | hp
      · by_cases hk : g.ck ≤ k
        · refine hnot (List.mem_append_left _ (List.mem_of_getElem? (i := k - g.ck) ?_))
          rw [List.getElem?_drop, Nat.add_sub_cancel' hk]
          exact h.inv.chain.place a k hown
        · have hmul := Nat.mul_le_mul_right cfg.bl (Nat.succ_le_of_lt (Nat.lt_of_not_le hk))
          rw [Nat.succ_eq_add_one, succ_mul] at hmul
          obtain ⟨off, _, hpos, _⟩ := h.cpos
          have hlt := h.inv.unfinished a k hown
          rw [(h.inv.content a k hown).consumed, tally_eq_iff.mpr fun p h1 h2 =>
            Ledger.CCell.isDone_iff.mpr ((h.done_of_idle hidle).mpr (by omega))] at hlt
          exact absurd hlt (by simp)
      · exact hnot (List.mem_append_right _ (by simp [hp]))

end

end Resting

/-- **Block ownership is exact.**  In every run of a single caller whose requests are at
most `usize::MAX + 1 - BL` the runs are counted right; whenever all threads rest, every
block ever allocated is in exactly one place; and if no iterator is left, dropping the
queue frees every block once. -/
theorem ownership_exact {c : Conf T} (hc : FitSerial cfg m c) :
    RunsExact c.sh ∧ ((∀ u, (c.pc u).atRest = true) → Exact cfg c) ∧
      ((∀ u, c.pc u = .idle) → ∃ s', Drops cfg c.sh s' ∧ RunsExact s' ∧ AllFreed s') := by
  obtain ⟨g, hg⟩ := run_ok hc.calm.1
  refine ⟨hg.1.pages.runsExact, fun hrest => (hg.resting hrest).exact, fun hidle => ?_⟩
  have h := hg.resting fun u => by rw [hidle u]; rfl
  have hpages := h.allFreed hidle
  exact ⟨_, h.drops, hpages.runsExact, hpages.allFreed fun _ => rfl⟩

/-- Five values in three blocks, the last two of them one run; an iterator of two
values is open (`n = 9`), or finished (`n = 15`). -/
def fiveValues (n : ℕ) : List (Tid × Act ℕ) :=
  calls 0 (.pushBatch [7, 8, 9, 10, 11]) 2 ++ [(0, .alloc [100])] ++ steps 0 3 ++
    [(0, .alloc [101, 102])] ++ steps 0 15 ++ calls 1 (.popBatch 2 2) n

/-- While the iterator is open its block lies behind `chead`; once it is finished
the block is in the pool, and the drop frees all three. -/
theorem ownership_exact_five_values :
    (∃ c : Conf ℕ, FitSerial twoSlots usizeMax c ∧ c.sh.arena.made = [100, 101, 102] ∧
      c.sh.chead.block = some 101 ∧ (∃! p, Lies twoSlots c 100 p) ∧
      (c.sh.arena.runs 0).remaining = 2) ∧
    ∃ c : Conf ℕ, FitSerial twoSlots usizeMax c ∧ c.sh.pool = some 100 ∧
      ∃ s', Drops twoSlots c.sh s' ∧ AllFreed s' := by
  constructor
  · obtain ⟨c, hexec, h0, h1, h2, hmade, hhead, hrem⟩ : ∃ c, serially twoSlots usizeMax
        (fun _ _ _ _ pc' => Fitting twoSlots usizeMax pc') (fiveValues 9) = some c ∧
        (c.pc 0).atRest = true ∧ (c.pc 1).atRest = true ∧ (c.pc 2).atRest = true ∧
        c.sh.arena.made = [100, 101, 102] ∧ c.sh.chead.block = some 101 ∧
        (c.sh.arena.runs 0).remaining = 2 :=
      ⟨_, rfl, by decide +kernel, by decide +kernel, by decide +kernel, by decide +kernel,
        by decide +kernel, by decide +kernel⟩
    obtain ⟨hc, hothers⟩ := serially_serial hexec (by decide +kernel)
    have hrest : ∀ u, (c.pc u).atRest = true
      | 0 => h0
      | 1 => h1
      | 2 => h2
      | u + 3 => by rw [hothers _ (Nat.le_add_left 3 u)]; rfl
    have hplace := ((ownership_exact hc).2.1 hrest).place 100 (by simp [hmade])
    exact ⟨c, hc, hmade, hhead, hplace, hrem⟩
  · obtain ⟨c, hexec, h0, h1, h2, hpool⟩ : ∃ c, serially twoSlots usizeMax
        (fun _ _ _ _ pc' => Fitting twoSlots usizeMax pc') (fiveValues 15) = some c ∧
        c.pc 0 = .idle ∧ c.pc 1 = .idle ∧ c.pc 2 = .idle ∧ c.sh.pool = some 100 :=
      ⟨_, rfl, rfl, rfl, rfl, by decide +kernel⟩
    obtain ⟨hc, hothers⟩ := serially_serial hexec (by decide +kernel)
    have hidle : ∀ u, c.pc u = .idle
      | 0 => h0
      | 1 => h1
      | 2 => h2
      | u + 3 => hothers _ (Nat.le_add_left 3 u)
    obtain ⟨s', hdrops, _, hfreed⟩ := (ownership_exact hc).2.2 hidle
    exact ⟨c, hc, hpool, s', hdrops, hfreed⟩

/-- **An oversized request pools the block of `chead`.**  Block length 2, three values in
two blocks, one value popped: `pop_batch(usize::MAX)` moves `chead` back to index 0 of the
first block, and the `next` of its iterator completes, resets and pools that block. -/
theorem head_block_pooled : ∃ c : Conf ℕ, Serial twoSlots usizeMax c ∧
    (∀ u, (c.pc u).atRest = true) ∧ 100 ∈ c.sh.arena.made ∧ Lies twoSlots c 100 .chain ∧
    Lies twoSlots c 100 .pool ∧ ¬ Exact twoSlots c := by
  obtain ⟨c, hexec, h0, h1, h2, hmade, hhead, hnext, hpool⟩ : ∃ c,
      serially twoSlots usizeMax (fun _ _ _ _ _ => True)
      (calls 0 (.pushBatch [7, 8, 9]) 2 ++ [(0, .alloc [100])] ++ steps 0 3 ++
        [(0, .alloc [101])] ++ steps 0 11 ++ calls 1 (.popBatch 1 1) 7 ++
        calls 1 (.popBatch usizeMax 0) 8) = some c ∧ (c.pc 0).atRest = true ∧
      (c.pc 1).atRest = true ∧ (c.pc 2).atRest = true ∧ 100 ∈ c.sh.arena.made ∧
      c.sh.chead.block = some 100 ∧ c.sh.next 100 = none ∧ c.sh.pool = some 100 :=
    ⟨_, rfl, by decide +kernel, by decide +kernel, by decide +kernel, by decide +kernel,
      by decide +kernel, by decide +kernel, by decide +kernel⟩
  obtain ⟨hc, hothers⟩ := serially_serial hexec (by decide +kernel)
  have hrest : ∀ u, (c.pc u).atRest = true
    | 0 => h0
    | 1 => h1
    | 2 => h2
    | u + 3 => by rw [hothers _ (Nat.le_add_left 3 u)]; rfl
  have hserial : Serial twoSlots usizeMax c := by
    refine hc.of_moves rfl fun t c c' _ hm => ?_
    obtain ⟨s', p', hs, rfl⟩ := hm
    exact ⟨s', p', hs.1, rfl⟩
  have hchain : Lies twoSlots c 100 .chain := ⟨[100], ⟨hhead, hnext⟩, by simp⟩
  have hpooled : Lies twoSlots c 100 .pool := hpool
  refine ⟨c, hserial, hrest, hmade, hchain, hpooled, fun hex => ?_⟩
  cases (hex.place 100 hmade).unique hchain hpooled

end Mpmc
