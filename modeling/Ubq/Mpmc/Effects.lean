/-
# What a step adds to the history

Most steps record nothing that a caller can see.  `step_effect` says which do:
a won reservation enters the log, and a return enters the trace, at one of the
return points listed in `Returns`.
-/
import Ubq.Mpmc.Safety

namespace Mpmc

variable {T : Type*} {cfg : Config} {t u : Tid} {s s' : Shared T} {g g' : Ghost T}
variable {pc : Pc T} {act : Act T} {it : Iter T}

/-- The iterator whose loop the next step may leave. -/
def Pc.iter? : Pc T → Option (Iter T)
  | .iConsume it _ | .iPool it _ | .iFree it _ => some it
  | _ => none

/-- The items of a `push_batch` between its reservation and its return. -/
def Pc.placed : Pc T → Option (List (Option T))
  | .pNext w | .pLink w | .pStore w _ => some w.p.items
  | .pWait f | .pWrite f _ => some f.p.items
  | .pDrop p => some p.items
  | _ => none

/-- The call a `push_batch` belongs to. -/
def PushRet.op : PushRet T → Op T
  | .user items => .pushBatch items
  | .fill q _ => .popBatch q.size q.keep

/-- The call a thread is inside of. -/
def Pc.op : Pc T → Option (Op T)
  | .idle | .fault => none
  | .pLoad p | .pInitSwap p | .pInitAlloc p | .pInitCas p _ | .pInitStore p _ | .pReload p
  | .pSwap p _ _ | .pAlloc p _ _ | .pCas p _ | .pDrop p => some p.ret.op
  | .pNext w | .pLink w | .pStore w _ => some w.p.ret.op
  | .pWait f | .pWrite f _ => some f.p.ret.op
  | .cLoad0 size keep => some (.popBatch size keep)
  | .cReload q | .cPhead q _ | .cCas q _ _ | .cPost q _ _ | .cRevert q _ _ _ | .cWalk q _ =>
    some (.popBatch q.size q.keep)
  | .cNext w | .cSpin w | .cNext2 w | .cStoreP w | .cStoreN w =>
    some (.popBatch w.q.size w.q.keep)
  | .iRead it | .iNext it | .iConsume it _ | .iReset it _ | .iPool it _ | .iFree it _ =>
    some (.popBatch it.size it.keep)
  | .eLoad | .eSpin _ => some .isEmpty

/-- The call a step is taken in. -/
def Act.op : Act T → Pc T → Option (Op T)
  | .call op, _ => some op
  | _, pc => pc.op

/-- The return points of the operations. -/
inductive Returns (s : Shared T) : Act T → Pc T → Op T → Res T → Prop
  | pushNil : Returns s (.call (.pushBatch [])) .idle (.pushBatch []) .pushed
  | popZero (keep : ℕ) :
      Returns s (.call (.popBatch 0 keep)) .idle (.popBatch 0 keep) (.popped 0 [])
  | push (p : Push T) (items : List T) : p.ret = .user items → p.items = items.map some →
      items ≠ [] → Returns s .run (.pDrop p) (.pushBatch items) .pushed
  | popInit (size keep : ℕ) : s.chead = Head.zero →
      Returns s .run (.cLoad0 size keep) (.popBatch size keep) (.popped 0 [])
  | popEmpty (q : Pop) (chead : Head) : s.phead.block = chead.block →
      s.phead.index ≤ chead.index →
      Returns s .run (.cPhead q chead) (.popBatch q.size q.keep) (.popped 0 [])
  | popDone (pc : Pc T) (it : Iter T) : pc.iter? = some it → 0 < it.reserved →
      Returns s .run pc (.popBatch it.size it.keep) (.popped it.reserved (it.out.take it.keep))
  | emptyFresh : s.phead = Head.zero → Returns s .run .eLoad .isEmpty (.answer true)
  | emptyHeads (phead : Head) : s.chead ≠ Head.zero →
      Returns s .run (.eSpin phead) .isEmpty
        (.answer (phead.block == s.chead.block && phead.index == s.chead.index))

/-- What one step of `t` from `pc` to `r` adds to the trace and to the log; a step
that does not return stays in its call. -/
inductive Effect (t : Tid) (s : Shared T) (act : Act T) (pc : Pc T) (r : Shared T × Pc T) : Prop
  | quiet : r.1.trace = s.trace → r.1.log.reservations = s.log.reservations →
      r.2.placed = pc.placed → r.2.op = act.op pc → Effect t s act pc r
  | reserves (pos : ℕ) (items : List (Option T)) : r.1.trace = s.trace →
      r.1.log.reservations = s.log.reservations ++ [(t, pos, items)] →
      pc.placed = none → r.2.placed = some items → r.2.op = act.op pc → Effect t s act pc r
  | returns (op : Op T) (res : Res T) : r.1.trace = s.trace ++ [(t, op, res)] →
      r.1.log.reservations = s.log.reservations → r.2 = .idle → Returns s act pc op res →
      Effect t s act pc r

/-! ## Pieces of the source -/

theorem pushLoop_placed (p : Push T) (phead : Head) : (pushLoop cfg p phead).placed = none := by
  unfold pushLoop
  split
  · rfl
  · split <;> rfl

theorem grown_placed (p : Push T) (phead : Head) (need : ℕ) :
    (grown cfg p phead need).placed = none := by
  unfold grown
  split <;> rfl

theorem fillOn_placed (f : Fill T) : (fillOn cfg f).placed = some f.p.items := by
  unfold fillOn
  split
  · split <;> rfl
  · rfl

theorem walkOn_placed (w : PushWalk T) (next : Option Addr) :
    (walkOn cfg w next).placed = some w.p.items := by
  unfold walkOn
  split <;> rfl

theorem popLoop_placed (q : Pop) (chead : Head) : (popLoop cfg q chead : Pc T).placed = none := by
  unfold popLoop popLoopWith
  split
  · rfl
  · split <;> rfl

theorem popWalkOn_placed (w : PopWalk) (next : Option Addr) :
    (popWalkOn cfg w next : Pc T).placed = none := by
  unfold popWalkOn
  split <;> rfl

theorem pushLoop_op (p : Push T) (phead : Head) :
    (pushLoop cfg p phead).op = some p.ret.op := by
  unfold pushLoop
  split
  · rfl
  · split <;> rfl

theorem grown_op (p : Push T) (phead : Head) (need : ℕ) :
    (grown cfg p phead need).op = some p.ret.op := by
  unfold grown
  split <;> rfl

theorem fillOn_op (f : Fill T) : (fillOn cfg f).op = some f.p.ret.op := by
  unfold fillOn
  split
  · split <;> rfl
  · rfl

theorem walkOn_op (w : PushWalk T) (next : Option Addr) :
    (walkOn cfg w next).op = some w.p.ret.op := by
  unfold walkOn
  split <;> rfl

theorem popLoop_op (q : Pop) (chead : Head) :
    (popLoop cfg q chead : Pc T).op = some (.popBatch q.size q.keep) := by
  unfold popLoop popLoopWith
  split
  · rfl
  · split <;> rfl

theorem popWalkOn_op (w : PopWalk) (next : Option Addr) :
    (popWalkOn cfg w next : Pc T).op = some (.popBatch w.q.size w.q.keep) := by
  unfold popWalkOn
  split <;> rfl

theorem give_history (s : Shared T) (self other : List Addr) :
    (s.give self other).1.trace = s.trace ∧ (s.give self other).1.log = s.log := by
  unfold Shared.give
  split <;> exact ⟨rfl, rfl⟩

theorem newChain_history (s : Shared T) (as : List Addr) :
    (s.newChain as).trace = s.trace ∧ (s.newChain as).log = s.log := by
  unfold Shared.newChain
  split <;> exact ⟨rfl, rfl⟩

/-- The end of a step of an iterator: it goes on, or the call returns. -/
theorem iterOn_effect (htr : s'.trace = s.trace)
    (hlog : s'.log.reservations = s.log.reservations) (hpc : pc.placed = none)
    (hop : some (.popBatch it.size it.keep) = act.op pc)
    (hret : it.len = 0 → Returns s act pc (.popBatch it.size it.keep)
      (.popped it.reserved (it.out.take it.keep))) :
    Effect t s act pc (iterOn s' t it) := by
  unfold iterOn
  split
  · rename_i hlen
    refine .returns _ _ ?_ hlog rfl (hret hlen)
    show s'.trace ++ _ = _
    rw [htr]
  · exact .quiet htr hlog hpc.symm hop

/-- A claim of at least one slot does not return. -/
theorem claimedOn_effect {q : Pop} {chead new : Head}
    (hq : 0 < q.len) (htr : s'.trace = s.trace)
    (hlog : s'.log.reservations = s.log.reservations) (hpc : pc.placed = none)
    (hop : some (.popBatch q.size q.keep) = act.op pc) :
    Effect t s act pc (claimedOn cfg s' t q chead new) := by
  unfold claimedOn
  split
  · exact .quiet htr hlog hpc.symm hop
  · refine iterOn_effect htr hlog hpc hop fun hlen => ?_
    have : q.len = 0 := hlen
    omega

/-- The end of a boundary claims what it has settled. -/
theorem settled_effect {w : PopWalk} {h : Head} {len : ℕ}
    (hlen : 0 < len) (hpc : pc.placed = none)
    (hop : some (.popBatch w.q.size w.q.keep) = act.op pc) :
    Effect t s act pc (settled cfg t s w h len) := by
  refine iterOn_effect rfl rfl hpc hop fun hc => ?_
  have : len = 0 := hc
  omega

/-- The iterator goes on, or its call returns. -/
theorem iterRead_effect {a : Addr}
    (htr : s'.trace = s.trace) (hlog : s'.log.reservations = s.log.reservations)
    (hpc : pc.placed = none) (hop : some (.popBatch it.size it.keep) = act.op pc) :
    Effect t s act pc (iterRead cfg s' it a) := by
  dsimp only [iterRead]
  split
  · exact .quiet htr hlog hpc.symm hop
  · split <;> exact .quiet htr hlog hpc.symm hop

/-! ## The steps -/

/-- The first step of a call. -/
theorem call_effect (op : Op T) :
    Post (Effect t s (.call op) .idle) (step cfg t (.call op) s .idle) := by
  cases op with
  | pushBatch items =>
    simp only [step, stepWith]
    split
    · rename_i hnil
      obtain rfl : items = [] := by simpa using hnil
      exact Effect.returns _ _ rfl rfl rfl .pushNil
    · exact Effect.quiet rfl rfl rfl rfl
  | popBatch size keep =>
    simp only [step, stepWith]
    split
    · rename_i hz
      subst hz
      exact Effect.returns _ _ rfl rfl rfl (.popZero keep)
    · exact Effect.quiet rfl rfl rfl rfl
  | isEmpty => exact Effect.quiet rfl rfl rfl rfl

/-- The steps of `push_batch`. -/
theorem push_effect (h : Inv cfg s g) (hl : Local cfg t s g pc)
    (hpc : pc.popping = false) : Post (Effect t s .run pc) (step cfg t .run s pc) := by
  cases pc with
  | pLoad p =>
    simp only [step, stepWith]
    split
    · exact Effect.quiet rfl rfl rfl rfl
    · exact Effect.quiet rfl rfl (pushLoop_placed _ _) (pushLoop_op _ _)
  | pInitSwap p =>
    simp only [step, stepWith]
    split <;> exact Effect.quiet rfl rfl rfl rfl
  | pInitCas p root =>
    simp only [step, stepWith]
    split
    · exact Effect.quiet rfl rfl rfl rfl
    · exact Effect.quiet rfl rfl (pushLoop_placed _ _) (pushLoop_op _ _)
  | pInitStore p root => exact Effect.quiet rfl rfl (pushLoop_placed _ _) (pushLoop_op _ _)
  | pReload p => exact Effect.quiet rfl rfl (pushLoop_placed _ _) (pushLoop_op _ _)
  | pSwap p phead need =>
    simp only [step, stepWith]
    split
    · exact Effect.quiet rfl rfl (grown_placed _ _ _) (grown_op _ _ _)
    · rename_i a ha
      obtain ⟨h1, h2⟩ := give_history { s with pool := none } p.blocks [a]
      exact Effect.quiet h1 (by rw [h2]) (grown_placed _ _ _) (grown_op _ _ _)
  | pCas p phead =>
    simp only [step, stepWith]
    split
    · refine Effect.reserves (place cfg s phead) p.items rfl rfl rfl ?_ ?_
      · show Pc.placed (if _ then _ else _) = _
        split
        · exact rfl
        · exact fillOn_placed _
      · show Pc.op (if _ then _ else _) = _
        split
        · exact rfl
        · exact fillOn_op _
    · exact Effect.quiet rfl rfl (pushLoop_placed _ _) (pushLoop_op _ _)
  | pNext w =>
    refine deref_found (pNext_ok h hl) fun b _ _ => ?_
    split
    · exact Effect.quiet rfl rfl rfl rfl
    · exact Effect.quiet rfl rfl (walkOn_placed _ _) (walkOn_op _ _)
  | pLink w =>
    exact deref_found (pLink_ok h hl) fun b _ _ => .quiet rfl rfl (walkOn_placed _ _)
      (walkOn_op _ _)
  | pStore w next => exact Effect.quiet rfl rfl (fillOn_placed _) (fillOn_op _)
  | pWait f =>
    refine deref_found (pWait_found h hl) fun a _ _ => ?_
    split <;> exact Effect.quiet rfl rfl rfl rfl
  | pWrite f next =>
    refine deref_found (pWrite_ok h hl) fun b _ _ => .quiet rfl rfl ?_ ?_
    · rw [fillOn_placed, Fill.advance_p]
      exact rfl
    · rw [fillOn_op, Fill.advance_p]
      exact rfl
  | pDrop p =>
    obtain ⟨items, hret, hitems, hne⟩ := hl.here.1.user
    simp only [step, stepWith]
    split
    · rw [hret]
      exact Effect.returns _ _ rfl rfl rfl (.push p items hret hitems hne)
    · exact Effect.quiet rfl rfl rfl rfl
  | eLoad =>
    simp only [step, stepWith]
    split
    · rename_i hz
      exact Effect.returns _ _ rfl rfl rfl (.emptyFresh hz)
    · exact Effect.quiet rfl rfl rfl rfl
  | eSpin phead =>
    simp only [step, stepWith]
    split
    · exact Effect.quiet rfl rfl rfl rfl
    · rename_i hz
      exact Effect.returns _ _ rfl rfl rfl (.emptyHeads phead hz)
  | fault => exact hl.here.elim
  | idle | pInitAlloc | pAlloc => trivial
  | _ => simp [Pc.popping] at hpc

/-- The iterator of a thread that counts or recycles has reserved something. -/
theorem Local.reserved_pos (hl : Local cfg t s g pc)
    (hit : pc.iter? = some it) : 0 < it.reserved := by
  have hh := hl.here
  cases pc with
  | iConsume it' a =>
    cases hit
    obtain ⟨k, e, hc, _⟩ := hh
    exact hc.iter.pos
  | iPool it' a =>
    cases hit
    exact hh.2.2.2.2.1.pos
  | iFree it' a =>
    cases hit
    exact hh.2.2.2.2.1.pos
  | _ => simp [Pc.iter?] at hit

/-- The steps of `pop_batch` and of its iterator. -/
theorem pop_effect (h : Inv cfg s g) (hl : Local cfg t s g pc)
    (hpc : pc.popping = true) : Post (Effect t s .run pc) (step cfg t .run s pc) := by
  cases pc with
  | cLoad0 size keep =>
    simp only [step, stepWith]
    split
    · rename_i hz
      exact Effect.returns _ _ rfl rfl rfl (.popInit size keep hz)
    · exact Effect.quiet rfl rfl rfl rfl
  | cReload q => exact Effect.quiet rfl rfl (popLoop_placed _ _) (popLoop_op _ _)
  | cPhead q chead =>
    have hq : 0 < q.len := hl.here.1.1
    simp only [step, stepWith]
    split
    · rename_i hb
      split
      · rename_i hz
        exact Effect.returns _ _ rfl rfl rfl (.popEmpty q chead hb (by omega))
      · exact Effect.quiet rfl rfl rfl rfl
    · exact Effect.quiet rfl rfl rfl rfl
  | cCas q chead new =>
    have hq : 0 < q.len := hl.here.1.1
    simp only [step, stepWith]
    split
    · split
      · exact claimedOn_effect hq rfl rfl rfl rfl
      · exact Effect.quiet rfl rfl rfl rfl
    · exact Effect.quiet rfl rfl (popLoop_placed _ _) (popLoop_op _ _)
  | cPost q chead new =>
    have hq : 0 < q.len := hl.here.1.1
    obtain ⟨hnot, _⟩ := cPost_ok h hl
    simp only [step, stepWith, if_neg hnot]
    exact claimedOn_effect hq rfl rfl rfl rfl
  | cRevert q chead new phead => exact hl.here.elim
  | cWalk q chead => exact Effect.quiet rfl rfl rfl rfl
  | cNext w =>
    refine deref_found (cNext_ok h hl) fun b _ _ => ?_
    split
    · split <;> exact Effect.quiet rfl rfl rfl rfl
    · exact Effect.quiet rfl rfl (popWalkOn_placed _ _) (popWalkOn_op _ _)
  | cSpin w =>
    simp only [step, stepWith]
    split
    · split <;> exact Effect.quiet rfl rfl rfl rfl
    · exact Effect.quiet rfl rfl rfl rfl
  | cNext2 w =>
    exact deref_found (cNext2_ok h hl) fun b _ _ => .quiet rfl rfl (popWalkOn_placed _ _)
      (popWalkOn_op _ _)
  | cStoreP w =>
    obtain ⟨n, hsc, hidx⟩ := hl.here
    exact settled_effect (cStoreP_len hsc hidx).1 rfl rfl
  | cStoreN w =>
    obtain ⟨n, m, hsc, _⟩ := hl.here
    exact settled_effect hsc.locked.pop.1 rfl rfl
  | iRead it =>
    refine deref_found (iRead_found h hl) fun a ha _ => ?_
    dsimp only
    split
    · exact .quiet rfl rfl rfl rfl
    · exact iterRead_effect rfl rfl rfl rfl
    · rename_i hst hv
      exact absurd hv (hl.has_value h ha hst)
    · exact iterRead_effect rfl rfl rfl rfl
  | iNext it => exact deref_found (iNext_ok h hl) fun b _ _ => .quiet rfl rfl rfl rfl
  | iConsume it a =>
    have hpos := hl.reserved_pos rfl
    simp only [step, stepWith]
    split
    · split <;> exact Effect.quiet rfl rfl rfl rfl
    · exact iterOn_effect rfl rfl rfl rfl fun _ => .popDone _ it rfl hpos
  | iReset it a => exact Effect.quiet rfl rfl rfl rfl
  | iPool it a =>
    have hpos := hl.reserved_pos rfl
    simp only [step, stepWith]
    split
    · exact iterOn_effect rfl rfl rfl rfl fun _ => .popDone _ it rfl hpos
    · exact Effect.quiet rfl rfl rfl rfl
  | iFree it a =>
    have hpos := hl.reserved_pos rfl
    exact iterOn_effect rfl rfl rfl rfl fun _ => .popDone _ it rfl hpos
  | _ => simp [Pc.popping] at hpc

/-- A return ends the call the step is taken in. -/
theorem Returns.op {op : Op T} {res : Res T}
    (h : Returns s act pc op res) : act.op pc = some op := by
  cases h with
  | push p items hret => simp [Act.op, Pc.op, PushRet.op, hret]
  | popDone _ it hit =>
    cases pc with
    | iConsume | iPool | iFree =>
      cases hit
      rfl
    | _ => simp [Pc.iter?] at hit
  | _ => rfl

/-- **Every step is silent, reserves, or returns.** -/
theorem step_effect (h : Inv cfg s g) (hl : Local cfg t s g pc)
    {r : Shared T × Pc T} (hs : step cfg t act s pc = some r) : Effect t s act pc r := by
  apply Post.of hs
  apply step_cases
  case call =>
    rintro op rfl rfl
    exact call_effect op
  case run =>
    rintro rfl
    cases hpc : pc.popping with
    | false => exact push_effect h hl hpc
    | true => exact pop_effect h hl hpc
  case pCas =>
    rintro p phead rfl rfl
    exact .quiet rfl rfl (pushLoop_placed _ _) (pushLoop_op _ _)
  case cCas =>
    rintro q chead new rfl rfl
    exact .quiet rfl rfl (popLoop_placed _ _) (popLoop_op _ _)
  case pInitAlloc =>
    rintro p a rfl rfl -
    exact .quiet rfl rfl rfl rfl
  case pAlloc =>
    rintro as p phead need rfl rfl - - -
    obtain ⟨h1, h2⟩ := give_history (s.newChain as) p.blocks as
    obtain ⟨h3, h4⟩ := newChain_history s as
    exact .quiet (h1.trans h3) (by rw [h2, h4]) rfl rfl

end Mpmc
