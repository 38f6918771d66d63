/-
# No call on one thread spins forever

A ranking of the program counters for a lone thread.  Every step that is not a
spurious failure of `compare_exchange_weak` lowers the rank or ends the call:
no CAS fails, no boundary is found locked, the next block is linked and every
claimed slot is written, so the remaining loops run over a batch, a claim or a
private chain.  Together with `solo_ok` this is the sequential correctness of
the queue (`fifo`).
-/
import Ubq.Mpmc.Sequential

namespace Mpmc

open Function

open Interleave

variable {T : Type*} {cfg : Config} {t u : Tid} {s s' : Shared T} {g g' : Ghost T}
  {o : Origin T}
variable {pc : Pc T} {act : Act T} {op : Op T} {c : Conf T}

/-! ## The rank -/

/-- How much of its call a lone thread has still to do. -/
@[simp]
def rank : Pc T → Rank
  | .idle | .fault | .cRevert .. | .cSpin .. | .cNext2 .. => .mk 0 0 0 0
  -- push_batch, up to the reservation
  | .pLoad _ => .mk 26 0 0 0
  | .pInitSwap _ => .mk 25 0 0 0
  | .pInitAlloc _ => .mk 24 0 0 0
  | .pInitCas .. => .mk 23 0 0 0
  | .pInitStore .. => .mk 22 0 0 0
  | .pReload _ => .mk 21 0 0 0
  | .pSwap .. => .mk 20 0 0 0
  | .pAlloc .. => .mk 19 0 0 0
  | .pCas .. => .mk 18 0 0 0
  -- the boundary and the slots of push_batch
  | .pNext w => .mk 17 w.remaining 1 0
  | .pLink w => .mk 17 w.remaining 0 0
  | .pStore .. => .mk 16 0 0 0
  | .pWait f => .mk 15 (f.p.items.length - f.done) 1 0
  | .pWrite f _ => .mk 15 (f.p.items.length - f.done) 0 0
  | .pDrop p => .mk 14 p.blocks.length 0 0
  -- pop_batch
  | .cLoad0 .. => .mk 13 0 0 0
  | .cReload _ => .mk 12 0 0 0
  | .cPhead .. => .mk 11 0 0 0
  | .cCas .. => .mk 10 0 0 0
  | .cPost .. => .mk 9 0 0 0
  | .cWalk .. => .mk 8 0 0 0
  | .cNext w => .mk 7 w.remaining 0 0
  | .cStoreP _ | .cStoreN _ => .mk 6 0 0 0
  -- UBQIter: reading a slot uses up one of the claim
  | .iRead it => .mk 5 it.len 0 0
  | .iNext it => .mk 5 it.len 5 0
  | .iConsume it _ => .mk 5 it.len 4 0
  | .iReset it _ => .mk 5 it.len 3 0
  | .iPool it _ => .mk 5 it.len 2 0
  | .iFree it _ => .mk 5 it.len 1 0
  -- is_empty
  | .eLoad => .mk 2 0 0 0
  | .eSpin _ => .mk 1 0 0 0

/-- The step ends the call or lowers the rank. -/
def Lower (pc : Pc T) (r : Shared T × Pc T) : Prop := r.2 = .idle ∨ rank r.2 < rank pc

/-! ## Steps of `push_batch` and `is_empty` -/

theorem pushLoop_rank {p : Push T} {phead : Head} (hi : phead.index < cfg.bl) :
    rank (pushLoop cfg p phead) < .mk 21 0 0 0 := by
  unfold pushLoop
  rw [if_neg (by omega)]
  split <;> simp only [rank, Rank.lt_iff] <;> omega

theorem fillOn_rank (f : Fill T) {n : ℕ} (hn : f.p.items.length - f.done < n) :
    rank (fillOn cfg f) < .mk 15 n 0 0 := by
  unfold fillOn
  split
  · split <;> simp only [rank, Rank.lt_iff] <;> omega
  · simp only [rank, Rank.lt_iff]
    omega

theorem walkOn_rank (w : PushWalk T) (next : Option Addr) (hi : w.index < cfg.bl) (c : ℕ) :
    rank (walkOn cfg w next) < .mk 17 w.remaining c 0 := by
  unfold walkOn
  split <;> simp only [rank, Rank.lt_iff] <;> omega

/-- `push_batch` and `is_empty` go forward. -/
theorem push_lower (h : Inv cfg s g) (hl : Local cfg t s g pc) (ha : Alone t g)
    (hsolo : SoloAt cfg o s pc) (hpc : pc.popping = false) :
    Post (Lower pc) (step cfg t .run s pc) := by
  cases pc with
  | pLoad p =>
    simp only [step, stepWith]
    split <;> refine Or.inr ?_
    · simp only [rank, Rank.lt_iff]
      omega
    · refine (pushLoop_rank (ha.phead_lt h hl rfl)).trans ?_
      simp only [rank, Rank.lt_iff]
      omega
  | pInitSwap p =>
    simp only [step, stepWith]
    split <;> refine Or.inr ?_ <;> simp only [rank, Rank.lt_iff] <;> omega
  | pInitCas p root =>
    simp only [step, stepWith, if_pos hsolo.2]
    refine Or.inr ?_
    simp only [rank, Rank.lt_iff]
    omega
  | pInitStore p root =>
    have hi : (Head.fromPtr (some root)).index < cfg.bl := cfg.bl_pos
    refine Or.inr ((pushLoop_rank hi).trans ?_)
    simp only [rank, Rank.lt_iff]
    omega
  | pReload p => exact Or.inr (pushLoop_rank (ha.phead_lt h hl rfl))
  | pSwap p phead need =>
    simp only [step, stepWith, grown]
    split <;> refine Or.inr ?_ <;> dsimp only <;> split <;> simp only [rank, Rank.lt_iff] <;> omega
  | pCas p phead =>
    simp only [step, stepWith, if_pos hsolo.2]
    refine Or.inr ?_
    show rank (if _ then _ else _) < _
    split
    · simp only [rank, Rank.lt_iff]
      omega
    · refine (fillOn_rank _ (Nat.lt_succ_self _)).trans ?_
      simp only [rank, Rank.lt_iff]
      omega
  | pNext w =>
    obtain ⟨n, hc⟩ := hl.here
    refine deref_found (pNext_ok h hl) fun a _ _ => .inr ?_
    split
    · simp only [rank, Rank.lt_iff]
      omega
    · exact walkOn_rank w _ hc.here.2.2 1
  | pLink w =>
    obtain ⟨n, hc, _⟩ := hl.here
    exact deref_found (pLink_ok h hl) fun a _ _ =>
      .inr (walkOn_rank { w with root := [] } _ hc.here.2.2 0)
  | pStore w next =>
    refine Or.inr ((fillOn_rank _ (Nat.lt_succ_self _)).trans ?_)
    simp only [rank, Rank.lt_iff]
    omega
  | pWait f =>
    refine deref_found (pWait_found h hl) fun a _ hnext => .inr ?_
    obtain ⟨n, hn⟩ := hnext
    rw [hn]
    simp only [rank, Rank.lt_iff]
    omega
  | pWrite f next =>
    obtain ⟨b, k, hf, _⟩ := hl.here
    have hlt := hf.lt
    refine deref_found (pWrite_ok h hl) fun a _ _ => .inr (fillOn_rank _ ?_)
    rw [Fill.advance_p, Fill.advance_done]
    omega
  | pDrop p =>
    obtain ⟨items, hret, _⟩ := hl.here.1.user
    simp only [step, stepWith]
    split
    · rw [hret]
      exact Or.inl rfl
    · rename_i b rest hb
      refine Or.inr ?_
      simp only [rank, Rank.lt_iff, hb, List.length_cons]
      omega
  | eLoad =>
    simp only [step, stepWith]
    split
    · exact Or.inl rfl
    · refine Or.inr ?_
      simp only [rank, Rank.lt_iff]
      omega
  | eSpin phead =>
    have hst := ha.ready hl rfl hl.here
    have hnz : s.chead ≠ Head.zero := fun hz => (chead_zero_iff h).mp hz hst
    simp only [step, stepWith, if_neg hnz]
    exact Or.inl rfl
  | fault => exact hsolo.elim
  | idle | pInitAlloc | pAlloc => trivial
  | _ => simp [Pc.popping] at hpc

/-! ## Steps of `pop_batch` -/

theorem iterOn_lower {it : Iter T} (h : Rank.mk 5 it.len 0 0 < rank pc) :
    Lower pc (iterOn s t it) := by
  unfold iterOn
  split
  · exact .inl rfl
  · exact .inr h

theorem claimedOn_lower {q : Pop} {chead new : Head}
    (h : Rank.mk 8 0 0 0 < rank pc) : Lower pc (claimedOn cfg s t q chead new) := by
  unfold claimedOn
  split
  · exact .inr h
  · refine iterOn_lower (lt_trans ?_ h)
    simp only [Rank.lt_iff]
    omega

/-- Outside its own slot loop a lone thread finds everything written. -/
theorem Alone.published (h : Inv cfg s g) (ha : Alone t g) (hl : Local cfg t s g pc)
    (hpc : pc.writing = false) {p : ℕ} (hp : p < g.L.ppos) : ∃ x, g.L.prod p = .published x := by
  refine h.ledger.published_of_settled hp fun u v hc => ?_
  by_cases hut : u = t
  · subst hut
    exact absurd (hl.pending hpc p v hc).2 (by omega)
  · exact absurd (ha.pending u hut p v hc).2 (by omega)

/-- A lone consumer does not wait for a slot of its claim. -/
theorem Alone.written (h : Inv cfg s g) (ha : Alone t g) {it : Iter T}
    (hl : Local cfg t s g (.iRead it)) {a : Addr} (hblock : it.block = some a) :
    ((s.heap a).slots it.index).state ≠ .zero := by
  obtain ⟨k, hr⟩ := hl.here
  obtain ⟨b, hb, _, hlive⟩ := reading_block h hr
  obtain rfl : a = b := Option.some.inj (hblock.symm.trans hb)
  have hcell : g.L.cons (k * cfg.bl + it.index) = .claimed t := by
    have := hr.holds 0 hr.left
    rwa [Nat.add_zero] at this
  have hlt : k * cfg.bl + it.index < g.L.cpos := h.ledger.claimed_lt (by rw [hcell]; simp)
  obtain ⟨x, hx⟩ := ha.published h hl rfl (Nat.lt_of_lt_of_le hlt h.cpos_le)
  have hhas := (h.content a k hlive).filled it.index x hr.here.2.2 hx
  cases x with
  | none =>
    have : ((s.heap a).slots it.index).state = .skip := hhas
    rw [this]
    simp
  | some v =>
    rw [hhas.1]
    simp

theorem iterRead_lower {it it' : Iter T} {a : Addr} (hlen : it'.len = it.len) (hpos : 0 < it.len) :
    Lower (.iRead it) (iterRead cfg s it' a) := by
  right
  dsimp only [iterRead]
  split
  · simp only [rank, Rank.lt_iff]
    omega
  · split <;> simp only [rank, Rank.lt_iff] <;> omega

/-- `pop_batch` up to its claim goes forward. -/
theorem claim_lower (h : Inv cfg s g) (hl : Local cfg t s g pc) (ha : Alone t g)
    (hcur : Current t s pc) (hsolo : SoloAt cfg o s pc) (hpc : pc.popping = true)
    (hR : pc.reading = false) : Post (Lower pc) (step cfg t .run s pc) := by
  cases pc with
  | cLoad0 size keep =>
    simp only [step, stepWith]
    split
    · exact Or.inl rfl
    · refine Or.inr ?_
      simp only [rank, Rank.lt_iff]
      omega
  | cReload q =>
    have hi := ha.chead_lt h hl rfl hl.here.2
    refine Or.inr ?_
    unfold popLoopWith
    rw [if_neg (by omega)]
    split <;> simp only [rank, Rank.lt_iff] <;> omega
  | cPhead q chead =>
    simp only [step, stepWith]
    split
    · split
      · exact Or.inl rfl
      · refine Or.inr ?_
        simp only [rank, Rank.lt_iff]
        omega
    · refine Or.inr ?_
      simp only [rank, Rank.lt_iff]
      omega
  | cCas q chead new =>
    simp only [step, stepWith, if_pos hcur.1]
    split
    · refine claimedOn_lower ?_
      simp only [rank, Rank.lt_iff]
      omega
    · refine Or.inr ?_
      simp only [rank, Rank.lt_iff]
      omega
  | cRevert => exact hsolo.elim
  | _ => exact absurd (And.intro hpc hR) (by simp [Pc.popping, Pc.reading])

/-- `pop_batch` from its claim on, and the iterator, go forward. -/
theorem read_lower (h : Inv cfg s g) (hl : Local cfg t s g pc) (ha : Alone t g)
    (hsolo : SoloAt cfg o s pc) (hR : pc.reading = true) :
    Post (Lower pc) (step cfg t .run s pc) := by
  cases pc with
  | cPost q chead new =>
    obtain ⟨hnot, _⟩ := cPost_ok h hl
    simp only [step, stepWith, if_neg hnot]
    refine claimedOn_lower ?_
    simp only [rank, Rank.lt_iff]
    omega
  | cWalk | iReset =>
    refine Or.inr ?_
    simp only [rank, Rank.lt_iff]
    omega
  | cNext w =>
    obtain ⟨n, m, hsc⟩ := hl.here
    have hi := hsc.here.2.2
    have hp : w.phead.index < cfg.bl := hsolo.2 ▸ ha.phead_lt h hl rfl
    refine deref_found (cNext_ok h hl) fun a _ _ => .inr ?_
    split
    · rw [if_neg (by omega)]
      simp only [rank, Rank.lt_iff]
      omega
    · unfold popWalkOn
      split <;> simp only [rank, Rank.lt_iff] <;> omega
  | cStoreP | cStoreN =>
    simp only [step, stepWith, settled]
    refine iterOn_lower ?_
    simp only [rank, Rank.lt_iff]
    omega
  | iRead it =>
    obtain ⟨k, hr⟩ := hl.here
    refine deref_found (iRead_found h hl) fun a hb _ => ?_
    have hwritten := ha.written h hl hb
    dsimp only
    split
    · rename_i hz
      exact absurd hz hwritten
    · exact iterRead_lower rfl hr.left
    · rename_i hst hv
      exact absurd hv (hl.has_value h hb hst)
    · exact iterRead_lower rfl hr.left
  | iNext it =>
    refine deref_found (iNext_ok h hl) fun a _ _ => .inr ?_
    simp only [rank, Rank.lt_iff]
    omega
  | iConsume it a =>
    simp only [step, stepWith]
    split
    · split <;> refine Or.inr ?_ <;> simp only [rank, Rank.lt_iff] <;> omega
    · refine iterOn_lower ?_
      simp only [rank, Rank.lt_iff]
      omega
  | iPool it a =>
    simp only [step, stepWith]
    split
    · refine iterOn_lower ?_
      simp only [rank, Rank.lt_iff]
      omega
    · refine Or.inr ?_
      simp only [rank, Rank.lt_iff]
      omega
  | iFree it a =>
    refine iterOn_lower ?_
    simp only [rank, Rank.lt_iff]
    omega
  | cSpin | cNext2 => exact hsolo.elim
  | _ => simp [Pc.reading] at hR

/-! ## Every call ends -/

/-- Neither a new call nor a spurious failure. -/
def Act.Calm : Act T → Prop
  | .run | .alloc _ => True
  | .call _ | .spurious => False

/-- **A calm step of a lone thread lowers the rank or ends the call.** -/
theorem solo_lower (h : Inv cfg s g) (hl : Local cfg t s g pc) (ha : Alone t g)
    (hcur : Current t s pc) (hsolo : SoloAt cfg o s pc) (hcalm : act.Calm)
    {r : Shared T × Pc T} (hs : step cfg t act s pc = some r) : Lower pc r := by
  apply Post.of hs
  apply step_cases
  case call =>
    rintro op rfl
    exact hcalm.elim
  case run =>
    rintro -
    cases hpc : pc.popping with
    | false => exact push_lower h hl ha hsolo hpc
    | true =>
      cases hR : pc.reading with
      | false => exact claim_lower h hl ha hcur hsolo hpc hR
      | true => exact read_lower h hl ha hsolo hR
  case pCas | cCas =>
    intros
    subst act
    exact hcalm.elim
  case pInitAlloc | pAlloc =>
    intros
    subst pc
    refine .inr ?_
    simp only [rank, Rank.lt_iff]
    omega

theorem deref_isSome (s : Shared T) (p : Option Addr) (k : Addr → Shared T × Pc T) :
    (deref s p k).isSome := by
  cases p <;> rfl

/-- Inside a call the thread can always go on; the allocator never runs dry. -/
theorem exists_calm (h : Inv cfg s g) (hl : Local cfg t s g pc)
    (hpc : pc ≠ .idle) : ∃ act : Act T, act.Calm ∧ (step cfg t act s pc).isSome := by
  cases pc with
  | idle => exact absurd rfl hpc
  | fault => exact hl.here.elim
  | cRevert => exact hl.here.elim
  | pInitAlloc p =>
    obtain ⟨m, hm⟩ := h.pages.bounded
    refine ⟨.alloc [m], trivial, ?_⟩
    simp only [step, stepWith, hm m (le_refl m), Bool.false_eq_true, if_false]
    rfl
  | pAlloc p phead need =>
    obtain ⟨m, hm⟩ := h.pages.bounded
    refine ⟨.alloc (List.range' m (divCeil (need - p.blocks.length * cfg.bl) cfg.bl)), trivial, ?_⟩
    simp only [step, stepWith]
    rw [if_pos ⟨List.length_range', List.nodup_range',
      fun a ha => hm a (List.mem_range'_1.mp ha).1⟩]
    rfl
  | pDrop p =>
    refine ⟨.run, trivial, ?_⟩
    simp only [step, stepWith]
    split <;> rfl
  | pInitSwap | pSwap =>
    refine ⟨.run, trivial, ?_⟩
    simp only [step, stepWith]
    split <;> rfl
  | pNext | pLink | pWait | pWrite | cNext | cNext2 | iRead | iNext =>
    exact ⟨.run, trivial, deref_isSome s _ _⟩
  | pLoad | pInitCas | pCas | cLoad0 | cPhead | cCas | cPost | iConsume | iPool | eLoad | eSpin =>
    refine ⟨.run, trivial, ?_⟩
    simp only [step, stepWith]
    split_ifs <;> rfl
  | _ => exact ⟨.run, trivial, rfl⟩

/-- A call starts only when the thread is idle. -/
theorem call_idle {r : Shared T × Pc T}
    (hs : step cfg t (.call op) s pc = some r) : pc = .idle := by
  cases pc with
  | idle => rfl
  | _ => cases op <;> exact absurd hs (by simp [step, stepWith])

open Interleave.System (Takes runs exists_runs_of_rank exists_not_calm)

theorem Takes.moves {c c' : Conf T} (h : Takes (step cfg) t act c c') :
    (system T cfg).Moves t c c' := by
  obtain ⟨s', p', hs, rfl⟩ := h
  exact ⟨s', p', ⟨act, hs⟩, rfl⟩

theorem takes_lower {c c' : Conf T} (hc : Lone cfg t o c) (hcalm : act.Calm)
    (h : Takes (step cfg) t act c c') : c'.pc t = .idle ∨ rank (c'.pc t) < rank (c.pc t) := by
  obtain ⟨g, hI, hl, ha⟩ := hc.good
  obtain ⟨s', p', hs, rfl⟩ := h
  show update c.pc t p' t = _ ∨ rank (update c.pc t p' t) < _
  rw [update_self]
  exact solo_lower hI hl ha hc.current hc.solo hcalm hs

theorem takes_next (hc : Lone cfg t o c) (hpc : c.pc t ≠ .idle) :
    ∃ (act : Act T) (c' : Conf T), act.Calm ∧ Takes (step cfg) t act c c' := by
  obtain ⟨g, hI, hl, _⟩ := hc.good
  obtain ⟨act, hcalm, hsome⟩ := exists_calm hI hl hpc
  obtain ⟨⟨s', p'⟩, hs⟩ := Option.isSome_iff_exists.mp hsome
  exact ⟨act, _, hcalm, s', p', hs, rfl⟩

/-- Inside the call `op` that started with the trace `tr`, or right after it. -/
def During (t : Tid) (tr : List (Tid × Op T × Res T)) (op : Op T) (c : Conf T) : Prop :=
  (c.pc t ≠ .idle ∧ c.sh.trace = tr ∧ (c.pc t).op = some op) ∨
    (c.pc t = .idle ∧ ∃ res, c.sh.trace = tr ++ [(t, op, res)])

/-- A step taken in the call `op` stays in it or records its end. -/
theorem during_of_step {c c' : Conf T} (hc : Lone cfg t o c)
    (hop : act.op (c.pc t) = some op) (h : Takes (step cfg) t act c c') :
    During t c.sh.trace op c' := by
  obtain ⟨g, hI, hl, _⟩ := hc.good
  obtain ⟨s', p', hs, rfl⟩ := h
  have hpc : (⟨s', update c.pc t p'⟩ : Conf T).pc t = p' := update_self _ _ _
  unfold During
  rw [hpc]
  have hin : p'.op = act.op (c.pc t) → p' ≠ .idle := by
    rintro hsame rfl
    rw [hop] at hsame
    simp [Pc.op] at hsame
  cases step_effect hI hl hs with
  | quiet htr _ _ hsame => exact .inl ⟨hin hsame, htr, hsame.trans hop⟩
  | reserves _ _ htr _ _ _ hsame => exact .inl ⟨hin hsame, htr, hsame.trans hop⟩
  | returns op' res htr _ hidle hret =>
    obtain rfl : op' = op := Option.some.inj (hret.op.symm.trans hop)
    exact .inr ⟨hidle, res, htr⟩

theorem during_takes {c c' : Conf T} {tr : List (Tid × Op T × Res T)}
    (hc : Lone cfg t o c) (hd : During t tr op c) (hpc : c.pc t ≠ .idle)
    (h : Takes (step cfg) t act c c') : During t tr op c' := by
  rcases hd with ⟨_, rfl, hop⟩ | ⟨hidle, _⟩
  · refine during_of_step hc ?_ h
    cases act with
    | call op' =>
      obtain ⟨_, _, hs, _⟩ := h
      exact absurd (call_idle hs) hpc
    | _ => exact hop
  · exact absurd hidle hpc

/-- The call `op` of `t`, from an idle configuration, run to its end by the
schedule. -/
structure Completes (cfg : Config) (t : Tid) (op : Op T) (c : Conf T)
    (sched : List (Tid × Act T)) (c' : Conf T) (res : Res T) : Prop where
  calm : ∀ e ∈ sched, e.1 = t ∧ e.2.Calm
  runs : runs (step cfg) ((t, .call op) :: sched) c = some c'
  idle : c'.pc t = .idle
  trace : c'.sh.trace = c.sh.trace ++ [(t, op, res)]

/-- **Every call of a lone thread can be run to its end.** -/
theorem call_completes (hc : Lone cfg t o c) (hidle : c.pc t = .idle) (op : Op T) :
    ∃ sched c' res, Completes cfg t op c sched c' res ∧ Lone cfg t o c' := by
  obtain ⟨c₁, h₁⟩ : ∃ c₁, Takes (step cfg) t (.call op) c c₁ := by
    have hsome : (step cfg t (.call op) c.sh (c.pc t)).isSome := by
      rw [hidle]
      cases op with
      | pushBatch items => simp only [step, stepWith]; split <;> rfl
      | popBatch size keep => simp only [step, stepWith]; split <;> rfl
      | isEmpty => rfl
    obtain ⟨⟨s', p'⟩, hs⟩ := Option.isSome_iff_exists.mp hsome
    exact ⟨_, s', p', hs, rfl⟩
  have hd₁ : During t c.sh.trace op c₁ := during_of_step hc rfl h₁
  obtain ⟨sched, c', hcalm, hrun, hend, hc', hd'⟩ := exists_runs_of_rank (t := t)
    (fun c' => Lone cfg t o c' ∧ During t c.sh.trace op c')
    (fun c' => c'.pc t = .idle) Act.Calm (fun c' => rank (c'.pc t))
    (fun _ _ _ hg hpc htakes => ⟨hg.1.moves (Takes.moves htakes),
      during_takes hg.1 hg.2 hpc htakes⟩)
    (fun _ _ _ hg _ hcalm htakes => takes_lower hg.1 hcalm htakes)
    (fun _ hg hpc => takes_next hg.1 hpc) ⟨hc.moves (Takes.moves h₁), hd₁⟩
  rcases hd' with ⟨hne, _⟩ | ⟨_, res, htrace⟩
  · exact absurd hend hne
  · exact ⟨sched, c', res, ⟨hcalm, h₁.runs hrun, hend, htrace⟩, hc'⟩

theorem rests_start : Rests cfg (system T cfg).start [] :=
  ⟨.start, fun _ => rfl, rfl⟩

/-- **On one thread the queue is a list.**  In every configuration of a run of one
thread on a new queue: no pointer was null; between two calls the results so far
are those of the list operations; every further call can be run to its end, and
runs forever only if `compare_exchange_weak` fails spuriously again and again. -/
theorem fifo {t : Tid} (hc : Solo cfg t (system T cfg).start c) :
    c.pc t ≠ .fault ∧
    (c.pc t = .idle → ∃ q, Behaves Origin.new c.sh.trace q ∧ c.sh.contents = q.map some) ∧
    (c.pc t = .idle → ∀ op, ∃ sched c' res, Completes cfg t op c sched c' res) ∧
    (∀ (x : ℕ → Conf T) (a : ℕ → Act T), x 0 = c →
      (∀ i, Takes (step cfg) t (a i) (x i) (x (i + 1))) → (∀ i, (x i).pc t ≠ .idle) →
      ∀ n, ∃ i, n ≤ i ∧ a i = .spurious) := by
  have hlone : Lone cfg t Origin.new c := solo_ok rests_start hc
  refine ⟨fun hf => ?_, fun hidle => ?_, fun hidle op => ?_, fun x a hx htakes hpc n => ?_⟩
  · have hsolo := hlone.solo
    rw [hf] at hsolo
    exact hsolo
  · have hsolo := hlone.solo
    rw [hidle] at hsolo
    exact hsolo
  · obtain ⟨sched, c', res, hcomp, _⟩ := call_completes hlone hidle op
    exact ⟨sched, c', res, hcomp⟩
  · obtain ⟨i, hi, hcalm⟩ := exists_not_calm
      (Lone cfg t Origin.new) (fun c' => c'.pc t = .idle) Act.Calm (fun c' => rank (c'.pc t))
      (fun _ _ _ hg _ h => hg.moves (Takes.moves h))
      (fun _ _ _ hg _ hcalm h => takes_lower hg hcalm h) htakes (hx ▸ hlone) hpc n
    refine ⟨i, hi, ?_⟩
    cases ha : a i with
    | spurious => rfl
    | call op =>
      obtain ⟨_, _, hs, _⟩ := htakes i
      rw [ha] at hs
      exact absurd (call_idle hs) (hpc i)
    | _ =>
      rw [ha] at hcalm
      exact absurd trivial hcalm

/-- Three values in over two blocks, an iterator dropped after the first of its
two values, and `is_empty`. -/
theorem fifo_dropped_iterator : ∃ c : Conf ℕ, Solo twoSlots 0 (system ℕ twoSlots).start c ∧
    c.pc 0 = .idle ∧ c.sh.trace = [(0, .pushBatch [7, 8, 9], .pushed),
      (0, .popBatch 2 1, .popped 2 [7]), (0, .isEmpty, .answer false)] ∧
    ∃ q, Behaves Origin.new c.sh.trace q ∧ c.sh.contents = q.map some := by
  obtain ⟨c, hexec, hidle, htrace⟩ : ∃ c, exec twoSlots (calls 0 (.pushBatch [7, 8, 9]) 2 ++
      [(0, .alloc [100])] ++ steps 0 3 ++ [(0, .alloc [101])] ++ steps 0 11 ++
      calls 0 (.popBatch 2 1) 15 ++ calls 0 .isEmpty 2) = some c ∧
      c.pc 0 = .idle ∧ c.sh.trace = [(0, .pushBatch [7, 8, 9], .pushed),
        (0, .popBatch 2 1, .popped 2 [7]), (0, .isEmpty, .answer false)] :=
    ⟨_, rfl, rfl, rfl⟩
  have hc : Solo twoSlots 0 (system ℕ twoSlots).start c :=
    System.runs_moves (by simp [calls, steps]) hexec
  exact ⟨c, hc, hidle, htrace, (fifo hc).2.1 hidle⟩

end Mpmc
