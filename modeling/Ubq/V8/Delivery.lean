/-
# What a run of the v8 queue delivers

The results of this module are read off the proof outline (`run_ok`), with the
ghost value gone from the statements: they speak about heads, blocks and the
history of reservations, claims, filled slots, moved values and finished calls.

* `delivery`: positions are handed out once on either side, every value moved
  out is the one its reserver wrote, a batch keeps its order, and a `read_into`
  that comes back empty-handed met the two heads at one position.
* `segment_copied`: leaving the publication wait means that the whole segment
  is in memory.
* `head_pair`: a successful reservation or claim never pairs an index with the
  block of another token.
-/
import Ubq.V8.Safety

namespace V8

open Function Interleave

variable {T : Type*} {cfg : Config} {t u : Tid} {s s' : Shared T} {g g' : Ghost T}
variable {pc : Pc T} {r : Shared T × Pc T}

/-! ## Where calls return -/

/-- The steps that end a call, with the operation and its result. -/
inductive Returns (s : Shared T) : Act T → Pc T → Op T → Res T → Prop
  | writeNil : Returns s (.call (.writeFrom [])) .idle (.writeFrom []) (.left [])
  | readZero : Returns s (.call (.readInto 0)) .idle (.readInto 0) (.out [])
  | write (w : Write T) : w.blocks = [] →
      Returns s .run (.wDrop w) (.writeFrom w.src) (.left (w.src.drop w.moved))
  | flush (freed : ℕ) : Returns s .run (.fDrop [] freed) .flushFreelist (.freed freed)
  | empty (cap index : ℕ) (block : Option Addr) : index / 2 = s.producerIndex / 2 →
      Returns s .run (.rPidx cap index block) (.readInto cap) (.out [])
  | read (r : Read T) : ¬ r.written < r.len →
      Returns s .run (.rSeg r) (.readInto r.cap) (.out r.out)

/-- The call that `FreeList::acquire` is part of. -/
def AcqRet.op : AcqRet T → Op T
  | .first src _ _ | .root src _ _ | .more src _ _ _ => .writeFrom src

/-- The call that `FreeList::take` is part of. -/
def TakeRet.op : TakeRet T → Op T
  | .acquire ret _ _ => ret.op
  | .flush => .flushFreelist

/-- The call a program counter is inside of. -/
def Pc.op : Pc T → Option (Op T)
  | .idle | .fault => none
  | .wIndex src | .wBlock src _ | .wLoop src _ _ _ | .wReIndex src _ | .wReBlock src _ _
  | .wRoot src _ _ _ | .wRootStore src _ _ _ | .wCas src _ _ _ => some (.writeFrom src)
  | .wSeg w | .wNext w | .wCopy w _ _ | .wPublish w _ | .wDrop w | .apFind w _ _ _
  | .apLink w _ _ _ => some (.writeFrom w.src)
  | .apWalk a | .apHas a | .apBlock a _ | .apIndex a _ => some (.writeFrom a.w.src)
  | .tLoad ret | .tCas ret _ | .tWalk ret _ _ => some ret.op
  | .aAlloc ret _ _ => some ret.op
  | .fDrop _ _ => some .flushFreelist
  | .rIndex cap | .rBlock cap _ | .rLoop cap _ _ | .rPidx cap _ _ | .rCas cap _ _ _ =>
    some (.readInto cap)
  | .rSeg r | .rProduced r | .rPending r _ | .rCopy r _ | .rNext r | .rConsume r _ | .rVblocks r _
  | .acLoad r _ | .acLoop r _ _ _ | .acNext r _ _ _ | .acBlock r _ _ | .acIndex r _
  | .cReset r _ _ | .cLoad r _ _ | .cLink r _ _ _ | .cPush r _ _ _ | .cFree r _ _ =>
    some (.readInto r.cap)

/-- The call in which a step is taken. -/
def Act.op (pc : Pc T) : Act T → Option (Op T)
  | .call op => some op
  | _ => pc.op

/-- A step inside the call `o`: it records nothing in the trace, and it stays in
that call unless it faults. -/
def Quiet (s : Shared T) (o : Option (Op T)) (r : Shared T × Pc T) : Prop :=
  r.1.trace = s.trace ∧ r.2 ≠ .idle ∧ (r.2 = .fault ∨ r.2.op = o)

theorem addAssign_trace (s : Shared T) (l l' : List Addr) :
    (s.addAssign l l').1.trace = s.trace := by
  unfold Shared.addAssign
  split <;> rfl

theorem resume_quiet (s : Shared T) (ret : AcqRet T) (acc : List Addr) :
    Quiet s (some ret.op) (resume s ret acc) := by
  cases ret with
  | first src index block => exact ⟨rfl, by simp [resume], .inr rfl⟩
  | root src index blocks => exact ⟨rfl, by simp [resume], .inr rfl⟩
  | more src index block blocks => exact ⟨addAssign_trace s blocks acc, by simp [resume], .inr rfl⟩

theorem acquire_quiet (s : Shared T) (ret : AcqRet T) (n : ℕ) :
    Quiet s (some ret.op) (acquire s ret n) := by
  unfold acquire
  split
  · exact resume_quiet s ret []
  · exact ⟨rfl, by simp, .inr rfl⟩

theorem took_quiet (s : Shared T) (ret : TakeRet T) (cached : List Addr) :
    Quiet s (some ret.op) (took s ret cached) := by
  cases ret with
  | flush => exact ⟨rfl, by simp [took], .inr rfl⟩
  | acquire ret blocks remaining =>
    have htrace := addAssign_trace s blocks cached
    simp only [took]
    split
    · have hq := resume_quiet (s.addAssign blocks cached).1 ret (s.addAssign blocks cached).2
      exact ⟨hq.1.trans htrace, hq.2⟩
    · exact ⟨htrace, by simp, .inr rfl⟩

theorem provision_quiet (cfg : Config) (s : Shared T) (src : List T) (index : ℕ)
    (block : Option Addr) (blocks : List Addr) :
    Quiet s (some (.writeFrom src)) (provision cfg s src index block blocks) := by
  simp only [provision]
  split
  · exact acquire_quiet s _ _
  · exact ⟨rfl, by simp, .inr rfl⟩

theorem severed_quiet (s : Shared T) (ret : TakeRet T) (taken : List Addr)
    (rest : Option Addr) :
    Quiet s (some ret.op) (step.severed s ret taken rest) := by
  unfold step.severed
  split
  · exact ⟨rfl, by simp, .inl rfl⟩
  · exact took_quiet _ ret taken

theorem reserved_quiet (cfg : Config) (t : Tid) (s : Shared T) (src : List T) (index : ℕ)
    (block : Option Addr) (blocks : List Addr) :
    Quiet s (some (.writeFrom src)) (reserved cfg t s src index block blocks) := by
  simp only [reserved]
  split <;> exact ⟨rfl, by simp, .inr rfl⟩

theorem claimed_quiet (cfg : Config) (t : Tid) (s : Shared T) (cap index : ℕ)
    (block : Option Addr) (newIndex : ℕ) :
    Quiet s (some (.readInto cap)) (claimed cfg t s cap index block newIndex) := by
  simp only [claimed]
  split <;> exact ⟨rfl, by simp, .inr rfl⟩

theorem advanceLoop_quiet (cfg : Config) (s : Shared T) (r : Read T) (newIndex pidx : ℕ)
    (blk : Option Addr) :
    Quiet s (some (.readInto r.cap)) (s, advanceLoop cfg r newIndex pidx blk) := by
  simp only [advanceLoop]
  split
  · exact ⟨rfl, by simp, .inr rfl⟩
  · split
    · exact ⟨rfl, by simp, .inr rfl⟩
    · split <;> exact ⟨rfl, by simp, .inr rfl⟩

theorem deref_quiet {p : Option Addr} {k : Addr → Shared T × Pc T} {o : Option (Op T)}
    {Q : Shared T × Pc T → Prop} (hk : ∀ a, Quiet s o (k a)) :
    Post (fun r => Quiet s o r ∨ Q r) (deref s p k) :=
  deref_post (fun _ => .inl ⟨rfl, by simp, .inl rfl⟩) fun a _ => .inl (hk a)

/-- An internal step of a call either stays inside it or returns from it. -/
theorem run_quiet_or_returns :
    Post (fun r => Quiet s pc.op r ∨ ∃ op res, Returns s .run pc op res ∧ r = ret s t op res)
      (step cfg t .run s pc) := by
  have hreload (ret : TakeRet T) (Q : Shared T × Pc T → Prop) :=
    reload_post (P := fun r => Quiet s (some ret.op) r ∨ Q r) (s := s) (r := ret)
      (fun _ _ => .inl ⟨rfl, by simp, .inr rfl⟩) fun _ => .inl (took_quiet s ret [])
  cases pc with
  | wDrop w =>
    cases hb : w.blocks with
    | nil =>
      simp only [step, hb]
      exact Or.inr ⟨_, _, .write w hb, rfl⟩
    | cons b rest =>
      simp only [step, hb]
      exact Or.inl ⟨rfl, by simp, .inr rfl⟩
  | fDrop blocks freed =>
    cases blocks with
    | nil => exact Or.inr ⟨_, _, .flush freed, rfl⟩
    | cons b rest => exact Or.inl ⟨rfl, by simp, .inr rfl⟩
  | rPidx cap index block =>
    simp only [step]
    split
    · exact Or.inr ⟨_, _, .empty cap index block ‹_›, rfl⟩
    · split <;> exact Or.inl ⟨rfl, by simp, .inr rfl⟩
  | rSeg r =>
    simp only [step]
    split
    · exact Or.inl ⟨rfl, by simp, .inr rfl⟩
    · exact Or.inr ⟨_, _, .read r ‹_›, rfl⟩
  | wBlock src index => exact Or.inl (acquire_quiet s _ _)
  | wLoop src index block blocks =>
    simp only [step]
    split
    · exact Or.inl ⟨rfl, by simp, .inr rfl⟩
    split
    · exact Or.inl (acquire_quiet s _ _)
    · exact Or.inl (provision_quiet cfg s src index block blocks)
  | wRoot src index new blocks =>
    simp only [step]
    split
    · exact Or.inl ⟨rfl, by simp, .inr rfl⟩
    · exact Or.inl ⟨addAssign_trace s blocks new, by simp, .inr rfl⟩
  | wRootStore src index new blocks =>
    exact Or.inl (provision_quiet cfg _ src index new.head? blocks)
  | wCas src index block blocks =>
    simp only [step]
    split
    · exact Or.inl (reserved_quiet cfg t s src index block blocks)
    · exact Or.inl ⟨rfl, by simp, .inr rfl⟩
  | wCopy w next i =>
    simp only [step]
    split
    · split
      · trivial
      · exact deref_quiet fun a => ⟨rfl, by simp, .inr rfl⟩
    · exact Or.inl ⟨rfl, by simp, .inr rfl⟩
  | apWalk a =>
    simp only [step]
    split
    · exact deref_quiet fun b => ⟨rfl, by simp, .inr rfl⟩
    · exact Or.inl ⟨rfl, by simp, .inr rfl⟩
  | tLoad ret => exact hreload ret _
  | tCas ret head =>
    simp only [step]
    split
    · exact Or.inl ⟨rfl, by simp, .inr rfl⟩
    · exact hreload ret _
  | tWalk ret taken rest =>
    cases rest with
    | none => exact Or.inl (severed_quiet s ret taken none)
    | some a =>
      simp only [step]
      split
      · exact Or.inl ⟨rfl, by simp, .inr rfl⟩
      · exact Or.inl (severed_quiet s ret taken (some a))
  | rCas cap index block newIndex =>
    simp only [step]
    split
    · exact Or.inl (claimed_quiet cfg t s cap index block newIndex)
    · exact Or.inl ⟨rfl, by simp, .inr rfl⟩
  | rCopy r i =>
    simp only [step]
    split
    · refine deref_quiet fun a => ?_
      split
      · exact ⟨rfl, by simp, .inl rfl⟩
      · exact ⟨rfl, by simp, .inr rfl⟩
    · split <;> exact Or.inl ⟨rfl, by simp, .inr rfl⟩
  | apFind w token curr blocks =>
    refine deref_quiet fun a => ?_
    split <;> exact ⟨rfl, by simp, .inr rfl⟩
  | rProduced | rConsume | rVblocks =>
    refine deref_quiet fun a => ?_
    dsimp only
    split <;> exact ⟨rfl, by simp, .inr rfl⟩
  | acLoop r newIndex pidx blk => exact Or.inl (advanceLoop_quiet cfg s r newIndex pidx blk)
  | cLink r next b head => cases head <;> exact Or.inl ⟨rfl, by simp, .inr rfl⟩
  | wNext | wPublish | apHas | rNext | acNext => exact deref_quiet fun a => ⟨rfl, by simp, .inr rfl⟩
  | wSeg | rLoop | rPending | acLoad | cPush =>
    simp only [step]
    split_ifs <;> exact Or.inl ⟨rfl, by simp, .inr rfl⟩
  | idle | fault | aAlloc => trivial
  | _ => exact Or.inl ⟨rfl, by simp, .inr rfl⟩

/-- **A step stays inside its call or returns from it**, and only a return is
recorded in the trace. -/
theorem step_quiet_or_returns {act : Act T}
    (hs : step cfg t act s pc = some r) :
    Quiet s (act.op pc) r ∨ ∃ op res, Returns s act pc op res ∧ r = ret s t op res := by
  apply Post.of hs
  apply step_cases
  case call =>
    intro op
    cases op with
    | writeFrom src =>
      simp only [step]
      split
      · rename_i hnil
        have hsrc : src = [] := by simpa using hnil
        subst hsrc
        exact Or.inr ⟨_, _, .writeNil, rfl⟩
      · exact Or.inl ⟨rfl, by simp, .inr rfl⟩
    | readInto cap =>
      simp only [step]
      split
      · rename_i hzero
        subst hzero
        exact Or.inr ⟨_, _, .readZero, rfl⟩
      · exact Or.inl ⟨rfl, by simp, .inr rfl⟩
    | flushFreelist => exact Or.inl ⟨rfl, by simp, .inr rfl⟩
  case run => exact run_quiet_or_returns
  case tCas =>
    exact fun ret head => reload_post (fun _ _ => .inl ⟨rfl, by simp, .inr rfl⟩)
      fun _ => .inl (took_quiet s ret [])
  case alloc =>
    intro a ret acc n
    simp only [step]
    split
    · trivial
    split
    · exact Or.inl (resume_quiet _ ret (a :: acc))
    · exact Or.inl ⟨rfl, by simp, .inr rfl⟩
  all_goals exact fun _ _ _ _ => .inl ⟨rfl, by simp, .inr rfl⟩

/-- A call starts only when the thread is idle. -/
theorem call_idle {op : Op T} (hs : step cfg t (.call op) s pc = some r) : pc = .idle := by
  cases pc with
  | idle => rfl
  | _ => cases op <;> exact absurd hs (by simp [step])

/-- The call that a step starts. -/
def Act.called : Act T → Option (Op T)
  | .call op => some op
  | _ => none

/-- **The trace lists the calls**: those it holds and the one in progress are
the ones that were started, in their order. -/
theorem step_calls {act : Act T}
    (hs : step cfg t act s pc = some r) (hr : r.2 ≠ .fault) :
    r.1.trace.map (fun e => e.2.1) ++ r.2.op.toList =
      s.trace.map (fun e => e.2.1) ++ pc.op.toList ++ act.called.toList := by
  have hop : pc.op.toList ++ act.called.toList = (act.op pc).toList := by
    cases act with
    | call op =>
      rw [call_idle hs]
      rfl
    | _ => exact List.append_nil _
  rw [List.append_assoc, hop]
  rcases step_quiet_or_returns hs with ⟨htr, _, hq⟩ | ⟨op, res, hret, rfl⟩
  · rw [htr, hq.resolve_left hr]
  · have hact : act.op pc = some op := by
      cases hret <;> rfl
    rw [hact]
    simp [ret, Pc.op]

/-! ## Runs on given schedules -/

/-- The configurations of the system. -/
abbrev Conf (T : Type*) := Interleave.Conf Tid (Shared T) (Pc T)

/-- Run a schedule of the queue from the start. -/
def exec (cfg : Config) (sched : List (Tid × Act T)) : Option (Conf T) :=
  System.runs (step cfg) sched (system T cfg).start

theorem exec_reachable {sched : List (Tid × Act T)} {c : Conf T}
    (h : exec cfg sched = some c) : (system T cfg).Reachable c :=
  System.runs_reachable .start h

/-- One virtual block of two slots per block. -/
def twoSlots : Config := ⟨2, 1, Nat.two_pos, Nat.one_pos⟩

/-- Thread `t` calls `op` and then takes `n` steps. -/
def calls (t : Tid) (op : Op T) (n : ℕ) : List (Tid × Act T) :=
  (t, .call op) :: List.replicate n (t, .run)

/-! ## Exactly-once delivery -/

/-- What the history of a run says about positions, values and finished calls. -/
structure Delivery (s : Shared T) : Prop where
  reserved_once : s.reservations.Pairwise (fun a b => a.2.1 + a.2.2.length ≤ b.2.1)
  claimed_once : s.claims.Pairwise (fun a b => a.2.1 + a.2.2 ≤ b.2.1)
  copied : ∀ e ∈ s.copied, ∃ r ∈ s.reservations, r.2.1 ≤ e.1 ∧ r.2.2[e.1 - r.2.1]? = some e.2
  moved : ∀ e ∈ s.delivered, (e.2.1, e.2.2) ∈ s.copied ∧
    (∃ r ∈ s.reservations, r.2.1 ≤ e.2.1 ∧ r.2.2[e.2.1 - r.2.1]? = some e.2.2) ∧
    ∃ c ∈ s.claims, c.1 = e.1 ∧ c.2.1 ≤ e.2.1 ∧ e.2.1 < c.2.1 + c.2.2
  moved_once : (s.delivered.map (fun e => e.2.1)).Nodup
  written : ∀ t src res, (t, Op.writeFrom src, res) ∈ s.trace → res = .left [] ∧
    (src = [] ∨ ∃ a, (t, a, src) ∈ s.reservations ∧
      ∀ j x, src[j]? = some x → (a + j, x) ∈ s.copied)
  read : ∀ t cap res, (t, Op.readInto cap, res) ∈ s.trace → ∃ vs b, res = .out vs ∧
    vs.length ≤ cap ∧ ∀ j x, vs[j]? = some x → (t, b + j, x) ∈ s.delivered

theorem Inv.history_delivery (h : Inv cfg s g) : Delivery s where
  reserved_once := h.hist.log.resv_sorted
  claimed_once := h.hist.log.claim_sorted
  copied := fun e he => h.hist.resv_cover _ _ (h.hist.copied_val e he)
  moved := fun e he => by
    obtain ⟨hpub, _⟩ := h.hist.log.deliv e he
    refine ⟨h.hist.copied_mem _ _ (Or.inl hpub), ?_, h.hist.deliv_claim e he⟩
    apply h.hist.resv_cover
    rw [hpub]
    rfl
  moved_once := h.hist.log.deliv_nodup
  written := fun t src res he => by
    obtain ⟨hres, hsent⟩ := h.hist.trace_write _ he src rfl
    refine ⟨hres, hsent.imp_right ?_⟩
    rintro ⟨a, hmem, hpub⟩
    exact ⟨a, hmem, fun j x hj => h.hist.copied_mem _ _ (Or.inl (hpub j x hj))⟩
  read := fun t cap res he => h.hist.trace_read _ he cap rfl

/-- The two heads stand at one position: everything reserved is claimed. -/
def Level (s : Shared T) : Prop :=
  s.consumerIndex / 2 = s.producerIndex / 2 ∧ s.claimedLen = s.sent.length

/-- A consumer whose snapshot of its own index is the producer's position has
met the two heads at that position. -/
theorem level_of_snapshot (h : Inv cfg s g) {index : ℕ} (hslot : OnSlot cfg index)
    (hle : index ≤ s.consumerIndex) (heq : index / 2 = s.producerIndex / 2) : Level s := by
  have hcp := cidx_le_pidx h
  have hpos : s.consumerIndex / 2 = s.producerIndex / 2 := by omega
  refine ⟨hpos, ?_⟩
  have hps : OnSlot cfg s.producerIndex := by
    unfold OnSlot at hslot ⊢
    rwa [← heq]
  obtain ⟨_, off, f, hoff, hf, hidx, hppos, _⟩ := phead_onSlot h hps
  obtain ⟨co, hci, hco, hcpos⟩ := cidx_split h
  have hcap := cfg.cap_lt_stride
  rw [hci, hidx, word_div_two cfg hf] at hpos
  obtain ⟨hk, ho⟩ := ridx_inj cfg (by omega) (by omega) hpos
  rw [h.hist.claim_len, h.hist.sent_len, hcpos, hppos, hk, ho]

/-- **Exactly-once delivery under every schedule.**  In a reachable
configuration reservations and claims are disjoint stretches of positions, what
is moved out of a position is what its reserver copied there, a batch keeps its
order, and a `read_into` with room for a value that returns none had, in the
state from which it returned, both heads at one position. -/
theorem delivery {c : Conf T} (hc : (system T cfg).Reachable c) :
    Delivery c.sh ∧
      ∀ t act cap s' pc', 0 < cap → step cfg t act c.sh (c.pc t) = some (s', pc') →
        s'.trace = c.sh.trace ++ [(t, .readInto cap, .out [])] → c.pc t ≠ .idle ∧ Level c.sh := by
  obtain ⟨g, hI, hL⟩ := run_ok hc
  refine ⟨hI.history_delivery, fun t act cap s' pc' hcap hs htrace => ?_⟩
  have hlocal := (hL t).here
  rcases step_quiet_or_returns hs with ⟨hq, _⟩ | ⟨op, res, hret, hr⟩
  · exact absurd (hq.symm.trans htrace) (by simp)
  · obtain ⟨hs', _⟩ := Prod.mk.inj hr
    rw [hs'] at htrace
    have hlast := List.append_cancel_left htrace
    simp only [List.cons.injEq, Prod.mk.injEq, and_true, true_and] at hlast
    obtain ⟨hop, hres⟩ := hlast
    generalize c.pc t = pc at hret hlocal
    cases hret with
    | writeNil | write | flush => exact absurd hop (by simp)
    | readZero =>
      injection hop with hzero
      omega
    | empty n index block heq =>
      obtain ⟨_, hsnap, hslot, _⟩ := hlocal
      exact ⟨by simp, level_of_snapshot hI hslot hsnap.1 heq⟩
    | read r hdone =>
      -- the copy loop returns only after it has moved its whole, nonempty claim
      obtain ⟨hout, _, _, hlen, _⟩ := hlocal
      injection hres with hnil
      rw [hnil, List.length_nil] at hout
      omega

/-- Two virtual blocks of two slots per block. -/
def fourSlots : Config := ⟨2, 2, Nat.two_pos, Nat.two_pos⟩

/-- Two readers have taken the three values of a batch; the next `read_into` finds the
queue empty, and the heads are level then. -/
theorem delivery_three_values : ∃ c : Conf ℕ, (system ℕ fourSlots).Reachable c ∧
    c.sh.trace = [(0, .writeFrom [7, 8, 9], .left []), (1, .readInto 2, .out [7, 8]),
      (2, .readInto 8, .out [9])] ∧
    Delivery c.sh ∧ c.pc 1 ≠ .idle ∧ Level c.sh := by
  obtain ⟨c, hexec, htr, s', pc', hs, htrace⟩ : ∃ c, exec fourSlots
      (calls 0 (.writeFrom [7, 8, 9]) 16 ++ calls 1 (.readInto 2) 13 ++ calls 2 (.readInto 8) 13 ++
        calls 1 (.readInto 1) 3) = some c ∧
      c.sh.trace = [(0, .writeFrom [7, 8, 9], .left []), (1, .readInto 2, .out [7, 8]),
        (2, .readInto 8, .out [9])] ∧
      ∃ s' pc', step fourSlots 1 .run c.sh (c.pc 1) = some (s', pc') ∧
        s'.trace = c.sh.trace ++ [(1, .readInto 1, .out [])] := ⟨_, rfl, rfl, _, _, rfl, rfl⟩
  have hc := exec_reachable hexec
  obtain ⟨hdelivery, hempty⟩ := delivery hc
  exact ⟨c, hc, htr, hdelivery, hempty 1 .run 1 s' pc' (by decide) hs htrace⟩

/-- A `read_into` with an empty buffer returns at once, whatever the queue holds:
here one value is published and unclaimed before and after the call. -/
theorem empty_buffer_read : ∃ (c : Conf ℕ) (s' : Shared ℕ), (system ℕ twoSlots).Reachable c ∧
    step twoSlots 0 (.call (.readInto 0)) c.sh (c.pc 0) = some (s', .idle) ∧
    s'.trace = c.sh.trace ++ [(0, .readInto 0, .out [])] ∧
    c.sh.consumerIndex / 2 ≠ c.sh.producerIndex / 2 ∧
    s'.consumerIndex / 2 ≠ s'.producerIndex / 2 := by
  obtain ⟨c, hexec, s', hs, htrace, h1, h2⟩ : ∃ c, exec twoSlots (calls 0 (.writeFrom [7]) 11)
      = some c ∧ ∃ s', step twoSlots 0 (.call (.readInto 0)) c.sh (c.pc 0) = some (s', .idle) ∧
        s'.trace = c.sh.trace ++ [(0, .readInto 0, .out [])] ∧
        c.sh.consumerIndex / 2 ≠ c.sh.producerIndex / 2 ∧
        s'.consumerIndex / 2 ≠ s'.producerIndex / 2 :=
    ⟨_, rfl, _, rfl, rfl, by decide, by decide⟩
  exact ⟨c, s', exec_reachable hexec, hs, htrace, h1, h2⟩

/-! ## The publication wait -/

/-- **The publication wait is sound.**  When a `read_into` enters the copy of a
segment, from either exit of its wait, the block it holds lives under the
segment's token and every slot of the segment holds the value its reserver
copied there. -/
theorem segment_copied {c : Conf T} (hc : (system T cfg).Reachable c) {t : Tid} {r : Read T}
    {s' : Shared T} (hs : step cfg t .run c.sh (c.pc t) = some (s', .rCopy r 0)) :
    ∃ a, r.block = some a ∧ s'.linked[r.token]? = some a ∧ tokenOf s'.linked a = r.token ∧
      ∀ j, j < r.count cfg → ∃ x,
        (s'.heap a).slots r.vblock (r.offset + j) = some x ∧
        (cfg.pos r.token r.vblock (r.offset + j), x) ∈ s'.copied ∧
        ∃ e ∈ s'.reservations, e.2.1 ≤ cfg.pos r.token r.vblock (r.offset + j) ∧
          e.2.2[cfg.pos r.token r.vblock (r.offset + j) - e.2.1]? = some x := by
  -- the assertion at the entry of the copy loop, in the configuration after the step
  have hc' : (system T cfg).Reachable ⟨s', update c.pc t (.rCopy r 0)⟩ :=
    hc.step ⟨s', _, ⟨.run, hs⟩, rfl⟩
  obtain ⟨g, hI, hL⟩ := run_ok hc'
  have hl : Local cfg t s' g (update c.pc t (.rCopy r 0) t) := hL t
  rw [update_self] at hl
  have hd : Draining cfg t s' g r 0 := hl.here
  obtain ⟨_, hlt, _, _, hat, _, _, _, hclaimed, hpub⟩ := hd
  obtain ⟨a, hblock, hget⟩ := hat.block
  have hcount := r.count_le cfg
  have hlive : g.owner a = .chain r.token := by
    apply live_of_not_done hI hget hat.2.2.1 hat.2.2.2
    have h0 := hclaimed 0 (by omega) (by omega)
    rw [Nat.add_zero] at h0
    rw [h0]
    simp
  refine ⟨a, hblock, hget, hI.chain.tokenOf hlive, fun j hj => ?_⟩
  obtain ⟨x, hx⟩ := hpub j hj
  rw [pos_add] at hx
  have hstored : g.L.Stored (cfg.pos r.token r.vblock (r.offset + j)) x := Or.inl hx
  refine ⟨x, (hI.content a _ hlive).slots _ _ x hat.2.2.1 (by omega) hstored,
    hI.hist.copied_mem _ _ hstored, hI.hist.resv_cover _ _ ?_⟩
  rw [hx]
  rfl

/-- A reader of one value in a half-published virtual block leaves its wait
through the producer index. -/
theorem segment_copied_partial : ∃ (c : Conf ℕ) (r : Read ℕ) (s' : Shared ℕ) (a : Addr),
    (system ℕ twoSlots).Reachable c ∧ c.pc 1 = .rPending r 1 ∧ r.block = some a ∧
    r.count twoSlots = 1 ∧ ∃ x, (s'.heap a).slots r.vblock (r.offset + 0) = some x := by
  obtain ⟨c, hexec, r, s', hpc, hcount, hs⟩ : ∃ c, exec twoSlots
      (calls 0 (.writeFrom [7]) 11 ++ calls 1 (.readInto 1) 7) = some c ∧ ∃ r s',
      c.pc 1 = .rPending r 1 ∧ r.count twoSlots = 1 ∧
        step twoSlots 1 .run c.sh (c.pc 1) = some (s', .rCopy r 0) :=
    ⟨_, rfl, _, _, rfl, rfl, rfl⟩
  have hc := exec_reachable hexec
  obtain ⟨a, hblock, _, _, hslots⟩ := segment_copied hc hs
  obtain ⟨x, hx, _⟩ := hslots 0 (by omega)
  exact ⟨c, r, s', a, hc, hpc, hblock, hcount, x, hx⟩

/-! ## The two halves of a head -/

/-- `block` is the block whose token is decoded from the packed index. -/
def Matches (cfg : Config) (s : Shared T) (index : ℕ) (block : Option Addr) : Prop :=
  ∃ a, block = some a ∧ s.linked[(decodeIndex (index / 2) cfg.ns cfg.nv).1]? = some a ∧
    tokenOf s.linked a = (decodeIndex (index / 2) cfg.ns cfg.nv).1

/-- A block with an unclaimed slot is the one its token names. -/
theorem matches_of_unclaimed (h : Inv cfg s g) {index k off f : ℕ} {block : Option Addr}
    (hidx : index = cfg.word k off f) (hf : f < 2) (hoff : off < cfg.cap)
    (hk : k < s.linked.length) (hblock : block = s.linked[k]?)
    (hpos : g.L.cpos ≤ k * cfg.cap + off) : Matches cfg s index block := by
  have hstride := cfg.cap_lt_stride
  have htok : (decodeIndex (index / 2) cfg.ns cfg.nv).1 = k := by
    rw [hidx, word_div_two cfg hf, decodeIndex_eq cfg (by omega)]
  have hget : s.linked[k]? = some s.linked[k] := List.getElem?_eq_getElem hk
  have hlive : g.owner s.linked[k] = .chain k := by
    apply live_of_not_done h hget (cfg.vblock_lt hoff) (cfg.offset_lt off)
    rw [cfg.pos_div_mod, (h.ledger.cons_free _).mpr hpos]
    simp
  refine ⟨s.linked[k], hblock.trans hget, ?_, ?_⟩
  · rwa [htok]
  · rw [htok]
    exact h.chain.tokenOf hlive

/-- **A head is never taken with a mismatched pair.**  When the exchange on
`producer.index` or on `consumer.index` succeeds, the block the thread holds is
the one whose token its index decodes to. -/
theorem head_pair {c : Conf T} (hc : (system T cfg).Reachable c) (t : Tid) :
    (∀ src index block blocks, c.pc t = .wCas src index block blocks →
      c.sh.producerIndex = index → Matches cfg c.sh index block) ∧
    (∀ cap index block newIndex, c.pc t = .rCas cap index block newIndex →
      c.sh.consumerIndex = index → Matches cfg c.sh index block) := by
  obtain ⟨g, hI, hL⟩ := run_ok hc
  have hlocal := (hL t).here
  constructor
  · intro src index block blocks hpc heq
    rw [hpc] at hlocal
    obtain ⟨_, hsnap, hslot, _⟩ := hlocal
    rw [← heq] at hslot
    obtain ⟨hown, off, f, hoff, hf, hidx, hppos, _⟩ := phead_onSlot hI hslot
    have hcpos := hI.cpos_le
    exact matches_of_unclaimed hI (heq ▸ hidx) hf hoff hI.pk_lt (hsnap.2.2 heq hown) (by omega)
  · intro cap index block newIndex hpc heq
    rw [hpc] at hlocal
    obtain ⟨_, hsnap, hslot, _⟩ := hlocal
    rw [← heq] at hslot
    obtain ⟨hown, off, f, hoff, hf, hidx, hcpos, _⟩ := chead_onSlot hI hslot
    have hck : g.ck < c.sh.linked.length := Nat.lt_of_le_of_lt hI.ck_le hI.pk_lt
    exact matches_of_unclaimed hI (heq ▸ hidx) hf hoff hck (hsnap.2.2 heq hown) (by omega)

/-- A producer and a consumer about to win their exchanges on block `0`. -/
theorem head_pair_first_block : ∃ c : Conf ℕ, (system ℕ twoSlots).Reachable c ∧
    c.pc 0 = .wCas [8] 2 (some 0) [1] ∧ Matches twoSlots c.sh 2 (some 0) ∧
    c.pc 1 = .rCas 1 0 (some 0) 2 ∧ Matches twoSlots c.sh 0 (some 0) := by
  obtain ⟨c, hexec, hp, hpi, hr, hri⟩ : ∃ c, exec twoSlots
      (calls 0 (.writeFrom [7]) 11 ++ calls 0 (.writeFrom [8]) 4 ++ [(0, .alloc 1)] ++
        calls 1 (.readInto 1) 4)
        = some c ∧ c.pc 0 = .wCas [8] 2 (some 0) [1] ∧ c.sh.producerIndex = 2 ∧
        c.pc 1 = .rCas 1 0 (some 0) 2 ∧ c.sh.consumerIndex = 0 := ⟨_, rfl, rfl, rfl, rfl, rfl⟩
  have hc := exec_reachable hexec
  exact ⟨c, hc, hp, (head_pair hc 0).1 _ _ _ _ hp hpi, hr, (head_pair hc 1).2 _ _ _ _ hr hri⟩

end V8
