/-
# Exactly-once delivery, and the order of the heads

`exactly_once` is the main safety theorem: in runs on words without a stale claim and
with requests that fit, every value is handed out at most as often as it was pushed, and
no block is recycled with an unread value in it.  `stale_claim` is the run that shows why
the first proviso is there.  A consumer takes a snapshot of `chead` and stalls; the block
goes round through the pool and is linked again; the CAS then succeeds with the old
snapshot, and the repair of the over-claim moves `chead` back behind a claim that was made
in between.

Where no address is linked twice there are no stale claims.  Then the repairs of
`pop_batch` are dead and both heads only move forward (`repairs_dead`), if the requests
fit; one that does not moves `chead` back (`wrapped_claim`).
-/
import Ubq.Mpmc.Arithmetic

namespace Mpmc

open Interleave

variable {T : Type*} {cfg : Config} {t u : Tid} {s s' : Shared T} {g g' : Ghost T}
variable {c : Conf T} {pc : Pc T} {m : ℕ}

/-! ## Exactly-once delivery -/

/-- The blocks a thread is about to reset or to free. -/
def Pc.recycles : Pc T → List Addr
  | .iReset _ a | .iFree _ a => [a]
  | .pDrop p => p.blocks
  | _ => []

/-- Nothing is handed out twice or out of nowhere, and no block is recycled with
an unread value in it. -/
structure ExactlyOnce (cfg : Config) (c : Conf T) : Prop where
  positions : (c.sh.log.delivered.map (fun e => e.2.1)).Nodup
  values : c.sh.log.received.Subperm c.sh.log.sent
  recycled : ∀ t, ∀ a ∈ (c.pc t).recycles, (c.sh.heap a).Spent cfg

theorem Local.recycled (h : Local cfg t s g pc) {a : Addr} (ha : a ∈ pc.recycles) :
    (s.heap a).Spent cfg := by
  have hh := h.here
  cases pc with
  | iReset it b =>
    obtain rfl : a = b := by simpa [Pc.recycles] using ha
    exact hh.2.1
  | iFree it b =>
    obtain rfl : a = b := by simpa [Pc.recycles] using ha
    exact hh.2.1
  | pDrop p => exact (hh.1.owned.2 a ha).2.spent
  | _ => simp [Pc.recycles] at ha

/-- The runs on words without stale claims whose requests fit. -/
def calmWords (T : Type*) (cfg : Config) (m : ℕ) : System Tid (Shared T) (Pc T) :=
  (words T cfg m).restrict fun t s pc _ pc' => AbaFree t s pc ∧ Fitting cfg m pc'

/-- **Exactly-once delivery.**  For every block length, with and without a hint
bit, any number of threads and any batch sizes up to `usize::MAX + 1 - BL`: in every
configuration that a run without stale claims can reach, no value has been handed out
more often than it was pushed, and no block with an unread value is about to be
recycled. -/
theorem exactly_once (hc : (calmWords T cfg m).Reachable c) : ExactlyOnce cfg c := by
  have hexact := words_exact (fun _ _ _ _ _ h => h.2) hc
  obtain ⟨g, hI, hL⟩ := run_ok (System.restrict_mono (fun _ _ _ _ _ h => h.1) hexact)
  exact ⟨hI.log.deliv_nodup, hI.log.subperm hI.ledger, fun t a ha => (hL t).recycled ha⟩

/-- Two values through one block: the reader is about to reset it. -/
theorem exactly_once_recycling : ∃ c : Conf ℕ, (calmWords ℕ twoSlots usizeMax).Reachable c ∧
    (c.pc 1).recycles = [100] ∧ c.sh.log.received = [some 7, some 8] ∧
    ExactlyOnce twoSlots c := by
  obtain ⟨c, hexec, hpc, hrec⟩ : ∃ c, wordExec twoSlots usizeMax
      (fun t s pc _ pc' => AbaFree t s pc ∧ Fitting twoSlots usizeMax pc')
      (calls 0 (.pushBatch [7]) 2 ++ [(0, .alloc [100])] ++ steps 0 5 ++
        calls 0 (.pushBatch [8]) 2 ++ [(0, .alloc [101])] ++ steps 0 9 ++
        calls 1 (.popBatch 2 2) 13) = some c ∧ (c.pc 1).recycles = [100] ∧
        c.sh.log.received = [some 7, some 8] := ⟨_, rfl, by decide +kernel, by decide +kernel⟩
  have hc : (calmWords ℕ twoSlots usizeMax).Reachable c := wordExec_reachable hexec
  exact ⟨c, hc, hpc, hrec, exactly_once hc⟩

/-- The schedule of a stale claim, with threads `0` (producer), `1` (the consumer
that stalls before its CAS) and `2` (a second consumer). -/
def staleSchedule : List (Tid × Act ℕ) :=
  calls 0 (.pushBatch [10]) 2 ++ [(0, .alloc [100])] ++ steps 0 5 ++
  calls 0 (.pushBatch [11]) 2 ++ [(0, .alloc [101])] ++ steps 0 9 ++
  -- the snapshot of block 100 by thread 1
  calls 1 (.popBatch 2 2) 3 ++
  -- both blocks are consumed, and block 100 is linked again
  calls 2 (.popBatch 2 2) 15 ++ calls 0 (.pushBatch [12]) 4 ++ calls 0 (.pushBatch [13]) 11 ++
  calls 2 (.popBatch 2 2) 15 ++ calls 0 (.pushBatch [14]) 4 ++
  -- the CAS of thread 1 succeeds, over-claims and is reverted
  steps 1 4 ++
  calls 0 (.pushBatch [15]) 11 ++ calls 2 (.popBatch 1 1) 12 ++
  -- thread 1 stores a head behind the claim of thread 2
  steps 1 2 ++ calls 2 (.popBatch 1 1) 12

/-- The runs on words whose requests fit. -/
def fittingWords (T : Type*) (cfg : Config) (m : ℕ) : System Tid (Shared T) (Pc T) :=
  (words T cfg m).restrict fun _ _ _ _ pc' => Fitting cfg m pc'

/-- **A stale claim breaks exactly-once delivery.**  Block length 2, three threads, no
request above 2: the value 15, pushed once, is handed out twice, and block 100 is about
to be reset although its slot 0 holds the unread value 14. -/
theorem stale_claim : ∃ c : Conf ℕ, (fittingWords ℕ twoSlots usizeMax).Reachable c ∧
    c.sh.log.sent.count (some 15) = 1 ∧ c.sh.log.received.count (some 15) = 2 ∧
    (c.pc 2).recycles = [100] ∧ ((c.sh.heap 100).slots 0).state = .written ∧
    ((c.sh.heap 100).slots 0).value = some 14 ∧ ((c.sh.heap 100).slots 0).read = false ∧
    ¬ ExactlyOnce twoSlots c := by
  obtain ⟨c, hexec, hsent, hrec, hpc, hstate, hval, hread⟩ : ∃ c,
      wordExec twoSlots usizeMax (fun _ _ _ _ pc' => Fitting twoSlots usizeMax pc')
        staleSchedule = some c ∧ c.sh.log.sent.count (some 15) = 1 ∧
      c.sh.log.received.count (some 15) = 2 ∧ (c.pc 2).recycles = [100] ∧
      ((c.sh.heap 100).slots 0).state = .written ∧ ((c.sh.heap 100).slots 0).value = some 14 ∧
      ((c.sh.heap 100).slots 0).read = false :=
    ⟨_, rfl, by decide +kernel, by decide +kernel, by decide +kernel, by decide +kernel,
      by decide +kernel, by decide +kernel⟩
  refine ⟨c, wordExec_reachable hexec, hsent, hrec, hpc, hstate, hval, hread, fun h => ?_⟩
  have := h.values.count_le (some 15)
  omega

/-! ## Runs that never link an address twice -/

/-- The runs in which no address is linked a second time. -/
def linkedOnce (T : Type*) (cfg : Config) : System Tid (Shared T) (Pc T) :=
  (system T cfg).restrict fun _ _ _ s' _ => s'.linked.Nodup

/-- Such runs on words. -/
def linkedOnceWords (T : Type*) (cfg : Config) (m : ℕ) : System Tid (Shared T) (Pc T) :=
  (words T cfg m).restrict fun _ _ _ s' _ => s'.linked.Nodup

/-- Such runs on words, with requests that fit. -/
def linkedOnceFitting (T : Type*) (cfg : Config) (m : ℕ) : System Tid (Shared T) (Pc T) :=
  (words T cfg m).restrict fun _ _ _ s' pc' => s'.linked.Nodup ∧ Fitting cfg m pc'

/-- If no address occurs twice, a snapshot is of the present life of its block. -/
theorem abaFree_of_nodup (hl : Local cfg t s g pc) (hnd : s.linked.Nodup) : AbaFree t s pc := by
  cases pc with
  | cCas q chead new =>
    intro _ _
    obtain ⟨_, hsnap, _⟩ := hl.here
    obtain ⟨a, hblock, hget⟩ := hsnap.here.block
    rw [hblock]
    refine tokenOf_eq hget fun j hj hc => ?_
    obtain ⟨hjlt, hja⟩ := List.getElem?_eq_some_iff.mp hc
    obtain ⟨hklt, hka⟩ := List.getElem?_eq_some_iff.mp hget
    have := (hnd.getElem_inj_iff).mp (hja.trans hka.symm)
    omega
  | _ => trivial

theorem linkedOnce_calm (hc : ((system T cfg).restrict fun _ _ _ s' pc' =>
      s'.linked.Nodup ∧ Fitting cfg m pc').Reachable c) :
    (calm T cfg).Reachable c ∧ c.sh.linked.Nodup := by
  induction hc with
  | start => exact ⟨.start, List.nodup_nil⟩
  | @step c c' t _ hm ih =>
    obtain ⟨s', p', ⟨hs, hnd, _⟩, rfl⟩ := hm
    obtain ⟨g, hI, hL⟩ := run_ok ih.1
    exact ⟨ih.1.step ⟨s', p', ⟨hs, abaFree_of_nodup (hL t) ih.2⟩, rfl⟩, hnd⟩

/-! ## The order of the heads -/

/-- `h` is not beyond `h'` in chain order. -/
def NotBeyond (s : Shared T) (h h' : Head) : Prop :=
  h = Head.zero ∨ ∃ (j k : ℕ) (a b : Addr), s.linked[j]? = some a ∧ h.block = some a ∧
    s.linked[k]? = some b ∧
    h'.block = some b ∧ (j < k ∨ j = k ∧ h.index ≤ h'.index)

theorem notBeyond_of_tokens {h h' : Head} {j k : ℕ} (hj : j < s.linked.length)
    (hk : k < s.linked.length) (hb : h.block = s.linked[j]?) (hb' : h'.block = s.linked[k]?)
    (hle : j < k ∨ j = k ∧ h.index ≤ h'.index) : NotBeyond s h h' := by
  obtain ⟨a, ha⟩ : ∃ a, s.linked[j]? = some a := ⟨_, List.getElem?_eq_getElem hj⟩
  obtain ⟨b, hb₁⟩ : ∃ b, s.linked[k]? = some b := ⟨_, List.getElem?_eq_getElem hk⟩
  exact Or.inr ⟨j, k, a, b, ha, hb.trans ha, hb₁, hb'.trans hb₁, hle⟩

/-- `chead` is not beyond `phead`. -/
theorem chead_le_phead (h : Inv cfg s g) : NotBeyond s s.chead s.phead := by
  by_cases hst : g.stage = .ready
  · have hpk := h.pk_lt (by rw [hst]; simp)
    have hck := h.ck_le
    obtain ⟨hci, hcp⟩ := chead_index_le h hst
    refine notBeyond_of_tokens (by omega) hpk (chead_block h hst) (phead_block h) ?_
    rcases Nat.eq_or_lt_of_le hck with heq | hlt
    · right
      refine ⟨heq, ?_⟩
      have hle := h.cpos_le
      rcases Nat.lt_or_ge s.phead.index cfg.bl with hi | hi
      · have hpp := (phead_open h hi).2.1
        rw [heq] at hcp
        omega
      · omega
    · exact Or.inl hlt
  · exact Or.inl ((chead_zero_iff h).mpr hst)

/-- A step moves `phead` forward. -/
theorem phead_forward (h : Inv cfg s g) (h' : Inv cfg s' g') (hR : Rely u s g s' g') :
    NotBeyond s' s.phead s'.phead := by
  by_cases hst : g.stage = .fresh
  · exact Or.inl ((phead_zero_iff h).mpr hst)
  · have hpk := h.pk_lt hst
    have hpk' := h'.pk_lt (hR.started hst)
    have hlen := linked_length_le hR
    refine notBeyond_of_tokens (j := g.pk) (by omega) hpk' ?_ (phead_block h') ?_
    · rw [linked_get hR hpk]
      exact phead_block h
    · rcases Nat.eq_or_lt_of_le hR.pk with heq | hlt
      · right
        refine ⟨heq, ?_⟩
        have hpp := hR.ledger.ppos
        have hle := phead_le_ppos h
        have hi := phead_index_le h
        rcases Nat.lt_or_ge s'.phead.index cfg.bl with hi' | hi'
        · have := (phead_open h' hi').2.1
          rw [heq] at hle
          omega
        · omega
      · exact Or.inl hlt

/-- A step moves `chead` forward. -/
theorem chead_forward (h : Inv cfg s g) (h' : Inv cfg s' g') (hR : Rely u s g s' g') :
    NotBeyond s' s.chead s'.chead := by
  by_cases hst : g.stage = .ready
  · have hst' := hR.ready hst
    have hck : g.ck < s.linked.length := Nat.lt_of_le_of_lt h.ck_le (h.pk_lt (by rw [hst]; simp))
    have hck' : g'.ck < s'.linked.length :=
      Nat.lt_of_le_of_lt h'.ck_le (h'.pk_lt (by rw [hst']; simp))
    have hlen := linked_length_le hR
    refine notBeyond_of_tokens (j := g.ck) (by omega) hck' ?_ (chead_block h' hst') ?_
    · rw [linked_get hR hck]
      exact chead_block h hst
    · rcases Nat.eq_or_lt_of_le hR.ck with heq | hlt
      · right
        have h1 := (chead_index_le h hst).2
        have h2 := (chead_index_le h' hst').2
        have h3 := hR.cpos
        rw [heq] at h1
        exact ⟨heq, by omega⟩
      · exact Or.inl hlt
  · exact Or.inl ((chead_zero_iff h).mpr hst)

/-! ## The repairs of `pop_batch` -/

/-- The push is the one of an iterator that is dropped. -/
def PushRet.isFill : PushRet T → Bool
  | .user _ => false
  | .fill .. => true

/-- Program counters of the two repairs: the revert, and a `push_batch` of the
`FalseIterator`. -/
def Pc.repairs : Pc T → Bool
  | .cRevert .. => true
  | .pLoad p | .pInitSwap p | .pInitAlloc p | .pInitCas p _ | .pInitStore p _ | .pReload p
  | .pSwap p _ _ | .pAlloc p _ _ | .pCas p _ | .pDrop p => p.ret.isFill
  | .pNext w | .pLink w | .pStore w _ => w.p.ret.isFill
  | .pWait f | .pWrite f _ => f.p.ret.isFill
  | _ => false

theorem PushOk.not_fill {p : Push T} (h : PushOk t s g p) : p.ret.isFill = false := by
  obtain ⟨items, hret, _⟩ := h.user
  rw [hret]
  rfl

theorem Local.not_repairs (h : Local cfg t s g pc) : pc.repairs = false := by
  have hh := h.here
  cases pc with
  | cRevert => exact hh.elim
  | pLoad p | pInitSwap p | pInitAlloc p | pInitCas p | pInitStore p | pReload p | pSwap p
  | pAlloc p | pCas p | pDrop p => exact hh.1.not_fill
  | pNext w =>
    obtain ⟨n, hc⟩ := hh
    exact hc.push.not_fill
  | pLink w =>
    obtain ⟨n, hc, _⟩ := hh
    exact hc.push.not_fill
  | pStore w next =>
    obtain ⟨n, hc, _⟩ := hh
    exact hc.push.not_fill
  | pWait f =>
    obtain ⟨⟨a, k, hf⟩, _⟩ := hh
    exact hf.push.not_fill
  | pWrite f next =>
    obtain ⟨a, k, hf, _⟩ := hh
    exact hf.push.not_fill
  | _ => rfl

/-- **Without address reuse the repairs are dead and the heads are monotone.**
In every run on words in which no address is linked twice and every request is at most
`usize::MAX + 1 - BL`, the condition after the CAS of `pop_batch` is false, no thread is
inside a repair, `chead` is not beyond `phead`, and every further step of the run moves
both heads forward. -/
theorem repairs_dead (hc : (linkedOnceFitting T cfg m).Reachable c) :
    (∀ t q chead new, c.pc t = .cPost q chead new →
      ¬ (c.sh.phead.block = chead.block ∧ c.sh.phead.index < new.index)) ∧
    (∀ t, (c.pc t).repairs = false) ∧ NotBeyond c.sh c.sh.chead c.sh.phead ∧
    ∀ t c', (linkedOnceFitting T cfg m).Moves t c c' →
      NotBeyond c'.sh c.sh.phead c'.sh.phead ∧ NotBeyond c'.sh c.sh.chead c'.sh.chead := by
  have hexact := words_exact (fun _ _ _ _ _ h => h.2) hc
  obtain ⟨hcalm, hnd⟩ := linkedOnce_calm hexact
  obtain ⟨g, hI, hL⟩ := run_ok hcalm
  refine ⟨fun t q chead new hpc => ?_, fun t => (hL t).not_repairs, chead_le_phead hI,
    fun t c' hm => ?_⟩
  · have hl := hL t
    rw [hpc] at hl
    exact (cPost_ok hI hl).1
  · obtain ⟨s', p', ⟨⟨act, hs⟩, _⟩, rfl⟩ := words_moves (fun _ _ _ _ _ h => h.2) hexact hm
    obtain ⟨g', hok, _⟩ := step_ok hI (hL t) (abaFree_of_nodup (hL t) hnd) hs
    have hR := hok.rely (t + 1) (Nat.succ_ne_self t)
    exact ⟨phead_forward hI hok.inv hR, chead_forward hI hok.inv hR⟩

/-- A consumer right after its CAS, in a run that links two addresses. -/
theorem repairs_dead_two_blocks : ∃ c : Conf ℕ,
    (linkedOnceFitting ℕ twoSlots usizeMax).Reachable c ∧
    (∃ q chead new, c.pc 1 = .cPost q chead new ∧
      ¬ (c.sh.phead.block = chead.block ∧ c.sh.phead.index < new.index)) ∧
    c.sh.linked = [100, 101] ∧ NotBeyond c.sh c.sh.chead c.sh.phead := by
  obtain ⟨c, hexec, hlk, q, chead, new, hpc⟩ : ∃ c, wordExec twoSlots usizeMax
      (fun _ _ _ s' pc' => s'.linked.Nodup ∧ Fitting twoSlots usizeMax pc')
      (calls 0 (.pushBatch [7]) 2 ++ [(0, .alloc [100])] ++ steps 0 5 ++
        calls 0 (.pushBatch [8]) 2 ++ [(0, .alloc [101])] ++ steps 0 9 ++
        calls 1 (.popBatch 2 2) 4) = some c ∧ c.sh.linked = [100, 101] ∧
        ∃ q chead new, c.pc 1 = .cPost q chead new := ⟨_, rfl, by decide +kernel, _, _, _, rfl⟩
  have hc : (linkedOnceFitting ℕ twoSlots usizeMax).Reachable c := wordExec_reachable hexec
  have h := repairs_dead hc
  exact ⟨c, hc, ⟨q, chead, new, hpc, h.1 1 q chead new hpc⟩, hlk, h.2.2.1⟩

/-- **An oversized claim moves `chead` back.**  Block length 2, three values in two blocks
that are linked once, one value popped: the CAS of `pop_batch(usize::MAX)` installs index 0
over index 1 of the first block. -/
theorem wrapped_claim : ∃ c c' : Conf ℕ, (linkedOnceWords ℕ twoSlots usizeMax).Reachable c ∧
    (linkedOnceWords ℕ twoSlots usizeMax).Moves 1 c c' ∧ c.sh.chead = ⟨some 100, 1, true⟩ ∧
    c'.sh.chead = ⟨some 100, 0, true⟩ ∧ ¬ NotBeyond c'.sh c.sh.chead c'.sh.chead := by
  obtain ⟨c, hexec, s', p', hs, hold, hnew, hlk⟩ : ∃ c, wordExec twoSlots usizeMax
      (fun _ _ _ s' _ => s'.linked.Nodup)
      (calls 0 (.pushBatch [7, 8, 9]) 2 ++ [(0, .alloc [100])] ++ steps 0 3 ++
        [(0, .alloc [101])] ++ steps 0 11 ++ calls 1 (.popBatch 1 1) 7 ++
        calls 1 (.popBatch usizeMax 0) 2) = some c ∧
      ∃ s' p', stepWith (wordAdd usizeMax) twoSlots 1 .run c.sh (c.pc 1) = some (s', p') ∧
        c.sh.chead = ⟨some 100, 1, true⟩ ∧ s'.chead = ⟨some 100, 0, true⟩ ∧
        s'.linked = [100, 101] := ⟨_, rfl, _, _, rfl, by decide +kernel, by decide +kernel, rfl⟩
  refine ⟨c, ⟨s', Function.update c.pc 1 p'⟩, wordExec_reachable hexec,
    ⟨s', p', ⟨⟨.run, hs⟩, (congrArg List.Nodup hlk).mpr (by decide)⟩, rfl⟩, hold, hnew, ?_⟩
  show ¬ NotBeyond s' c.sh.chead s'.chead
  rw [hold, hnew]
  rintro (hz | ⟨j, k, a, b, hj, ha, hk, hb, hle⟩)
  · cases hz
  · -- both heads are in block 100, which has one place in the chain
    cases ha
    cases hb
    rw [hlk] at hj hk
    have hfirst : ∀ i, ([100, 101] : List Addr)[i]? = some 100 → i = 0 := by
      intro i hi
      rcases i with _ | _ | i <;> simp at hi ⊢
    simp [hfirst j hj, hfirst k hk] at hle

end Mpmc
