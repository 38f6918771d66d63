/-
# Every step of the channel keeps the invariant

The steps of a call are put together from the moves.  The scans come first: where
the loops go next, and what a scan that ends has seen.  `step_ok` is the step
lemma, `run_ok` the statement about all runs.
-/
import Ubq.Lubq.Moves

namespace Lubq

open Function Interleave

variable {T : Type*} {cfg : Config} {t u : Tid} {s s' : Shared T} {g g' : Ghost}
variable {pc : Pc T} {a : Addr} {y : Scan T} {c k : ℕ} {x : Recv T} {w : Bool}

theorem Ok.next (hok : Ok cfg t s g s' g') (hl : Local cfg t s' g' pc)
    (htr : s'.trace = s.trace) : StepOk cfg t s g (s', pc) :=
  ⟨⟨g', hok, hl⟩, .inl htr⟩

/-- A call that hands no value to a receiver returns. -/
theorem Ok.ret (hok : Ok cfg t s g s' g') (hb : Bare t g') (htr : s'.trace = s.trace) {op : Op T}
    {res : Res T} (hnil : ∀ r, handed r op res = [])
    (hj : Justified s (Lubq.ret s' t op res).1 op res) :
    StepOk cfg t s g (Lubq.ret s' t op res) :=
  ⟨⟨g', hok.trans (trace_ok hok.inv hnil), hb.toLocal rfl rfl rfl trivial⟩,
    .inr ⟨op, res, by rw [← htr]; rfl, hj⟩⟩

/-! ## Returning from a receiving call -/

theorem Recv.op_values (x : Recv T) : x.op.values = x.values := by
  unfold Recv.op Recv.values
  cases x.mode <;> rfl

theorem Recv.op_receiver (x : Recv T) : x.op.receiver = some x.r := by
  unfold Recv.op
  cases x.mode <;> rfl

theorem Recv.handed_err (x : Recv T) (r : ℕ) (e : TryRecvError) : handed r x.op (x.err e) = [] := by
  unfold Recv.op Recv.err
  cases x.mode <;> rfl

/-- A successful call hands over what it has popped. -/
theorem Recv.handed_ok (x : Recv T) (r : ℕ) (hne : x.received ≠ [])
    (hle : x.received.length ≤ x.size) :
    handed r x.op x.ok = if x.r = r then x.received else [] := by
  obtain ⟨r', mode, second, received⟩ := x
  cases received with
  | nil => exact absurd rfl hne
  | cons v vs =>
    cases mode with
    | one =>
      have hnil : vs = [] := by
        apply List.eq_nil_of_length_eq_zero
        have : vs.length + 1 ≤ 1 := hle
        omega
      rw [hnil]
      rfl
    | batch values size =>
      show (if r' = r then (values ++ v :: vs).drop values.length else []) = _
      rw [List.drop_left]

theorem Recv.ok_justified (x : Recv T) (op : Op T) : Justified s s' op x.ok := by
  unfold Recv.ok
  split <;> trivial

/-- `try_recv` after a scan. -/
theorem scanned_ok (h : Inv cfg s g) (hb : Bare t g) (hx : Receiving t s x)
    (hsize : 0 < x.size) (hle : x.received.length ≤ x.size)
    (hclosed : x.second = true → x.received = [] → ∀ a ∈ s.owned, s.queue a = []) :
    StepOk cfg t s g (scanned s t x) := by
  unfold scanned
  split
  · rename_i hnil hfalse
    exact (Ok.refl h).next (hb.toLocal rfl rfl rfl ⟨hx, hnil, hsize, hfalse⟩) rfl
  · rename_i hnil htrue
    refine ⟨⟨g, retRecv_ok h hx ?_ fun r _ => x.handed_err r _,
      hb.toLocal rfl rfl rfl trivial⟩, .inr ⟨_, _, rfl, ⟨⟨?_, ?_⟩, ?_⟩⟩⟩
    · rw [x.handed_err, hnil]
    · exact hx.second htrue
    · exact hclosed htrue hnil
    · rw [hnil, List.append_nil, x.op_values]
  · rename_i hcons
    have hne : x.received ≠ [] := by
      rw [hcons]
      simp
    refine ⟨⟨g, retRecv_ok h hx ?_ fun r hr => ?_, hb.toLocal rfl rfl rfl trivial⟩,
      .inr ⟨_, _, rfl, x.ok_justified _⟩⟩
    · rw [x.handed_ok _ hne hle, if_pos rfl]
    · rw [x.handed_ok _ hne hle, if_neg (Ne.symm hr)]

/-! ## The loops of a scan -/

/-- A scan has seen all shards up to its boundary, which is the last shard if the
channel is closed. -/
theorem Scanning.closed (hy : Scanning t s g y)
    (hall : Drained s y.recv fun i => i ≤ y.boundaryId) :
    y.recv.second = true → y.recv.received = [] → ∀ a ∈ s.owned, s.queue a = [] := by
  intro hsec hnil a ha
  obtain ⟨i, hi⟩ := List.mem_iff_getElem?.mp ha
  refine hall hsec hnil i a ?_ hi
  have := (List.getElem?_eq_some_iff.mp hi).1
  have := hy.last hsec
  omega

theorem scanEnd_ok (h : Inv cfg s g) (hb : Bare t g) (hy : Scanning t s g y)
    (hlt : y.recv.received.length < y.recv.size)
    (hall : Drained s y.recv fun i => i ≤ y.boundaryId) : StepOk cfg t s g (scanEnd s t y) := by
  unfold scanEnd
  split
  · rename_i hnil
    exact (Ok.refl h).next (hb.toLocal rfl rfl rfl ⟨hy, hnil, by omega, hall⟩) rfl
  · exact scanned_ok h hb hy.recv (by omega) (by omega) (hy.closed hall)

/-- The second loop at position `c`. -/
theorem scanWrapped_ok (h : Inv cfg s g) (hb : Bare t g) (hy : Scanning t s g y)
    (hlt : y.recv.received.length < y.recv.size) (ha : s.owned[c]? = some a)
    (hc : c ≤ y.boundaryId) (hdr : Drained s y.recv (Visited y true c)) :
    StepOk cfg t s g (scanWrapped s t y (some a)) := by
  have hid := h.registry.ids c a ha
  simp only [scanWrapped, hid]
  split
  · refine scanEnd_ok h hb hy hlt fun hsec hnil i b hi => hdr hsec hnil i b ?_
    show y.startId ≤ i ∧ i ≤ y.boundaryId ∨ i < c
    omega
  · exact (Ok.refl h).next
      (hb.toLocal rfl rfl rfl ⟨c, ⟨hy, ha, (by omega : c < y.startId), hdr⟩, hlt⟩) rfl

theorem within_eq (h : Inv cfg s g) {c b : ℕ} (ha : s.owned[c]? = some a) (hc : c ≤ b) :
    s.within b (some a) = some a := by
  have hid := h.registry.ids c a ha
  simp [Shared.within, hid, hc]

/-- A scan moves on from position `c`, which it has visited. -/
theorem scanNext_ok (h : Inv cfg s g) (hb : Bare t g)
    (hst : Standing t s g y w a c) (hlt : y.recv.received.length < y.recv.size)
    {next : Option Addr} (hnext : Linked s y c next)
    (hdr : Drained s y.recv (Visited y w (c + 1))) :
    StepOk cfg t s g (scanNext s t y w a next) := by
  have hid := h.registry.ids c a hst.here
  have hy := hst.scan
  cases w with
  | false =>
    obtain ⟨hge, hle⟩ : y.startId ≤ c ∧ c ≤ y.boundaryId := hst.bounds
    simp only [scanNext, hid]
    split
    · refine (Ok.refl h).next (hb.toLocal rfl rfl rfl ⟨hy, hlt, fun hsec hnil i b hi => ?_⟩) rfl
      refine hdr hsec hnil i b ?_
      show y.startId ≤ i ∧ i < c + 1
      omega
    · rcases hnext with ⟨b, rfl, hb'⟩ | ⟨_, hbad⟩
      · have hid' := h.registry.ids _ b hb'
        rw [within_eq h hb' (by omega)]
        simp only [scanFrom, hid']
        rw [if_neg (by omega)]
        exact (Ok.refl h).next (hb.toLocal rfl rfl rfl
          ⟨c + 1, ⟨hy, hb', (by omega : y.startId ≤ c + 1 ∧ c + 1 ≤ y.boundaryId), hdr⟩, hlt⟩) rfl
      · omega
  | true =>
    have hlts : c < y.startId := hst.bounds
    have hle := hy.start_le
    rcases hnext with ⟨b, rfl, hb'⟩ | ⟨_, hbad⟩
    · simp only [scanNext]
      rw [within_eq h hb' (by omega)]
      exact scanWrapped_ok h hb hy hlt hb' (by omega) hdr
    · omega

/-- A scan begins at position `c`. -/
theorem scanFrom_ok (h : Inv cfg s g) (hb : Bare t g) {b : ℕ}
    (hx : Receiving t s x) (hnil : x.received = []) (hsize : 0 < x.size) (hbound : b < g.nt)
    (hlast : x.second = true → b + 1 = s.owned.length)
    (ha : s.owned[c]? = some a) (hc : c ≤ b) :
    Local cfg t s g (scanFrom s ⟨x, b, a, (s.heap a).id⟩ (some a)) := by
  have hid := h.registry.ids c a ha
  simp only [scanFrom, hid]
  rw [if_neg (by omega)]
  refine hb.toLocal rfl rfl rfl ⟨c, ⟨⟨hx, hbound, ha, hc, hlast⟩, ha, ⟨Nat.le_refl c, hc⟩, ?_⟩, ?_⟩
  · intro _ _ i e hi _
    obtain ⟨h1, h2⟩ : c ≤ i ∧ i < c := hi
    omega
  · rwa [hnil]

/-! ## The calls of a receiver -/

/-- The program counters of a receiving call. -/
def Pc.receives : Pc T → Bool
  | .rTail .. | .rTake .. | .rHead .. | .rNext .. | .rPop .. | .rCursor .. | .rWrap .. | .rRotate ..
  | .rRotateHead .. | .rSenders .. => true
  | _ => false

theorem Local.bare_of_receives (hl : Local cfg t s g pc) (hpc : pc.receives = true) :
    Bare t g := by
  cases pc with
  | rTail | rTake | rHead | rNext | rPop | rCursor | rWrap | rRotate | rRotateHead | rSenders =>
    exact hl.bare rfl rfl rfl
  | _ => simp [Pc.receives] at hpc

/-- The cursor moves within the arena. -/
theorem Receiving.setCursor (h : Receiving t s x) (p : Option Addr) :
    Receiving t (s.setCursor x.r p) x := { h with }

theorem Scanning.setCursor (h : Scanning t s g y) (r : ℕ) (p : Option Addr) :
    Scanning t (s.setCursor r p) g y := { h with recv := { h.recv with } }

theorem Standing.setCursor
    (h : Standing t s g y w a c) (r : ℕ) (p : Option Addr) :
    Standing t (s.setCursor r p) g y w a c := { h with scan := h.scan.setCursor r p }

/-- A step whose first half moves the cursor. -/
theorem StepOk.after {p : Option Addr} (hok : Ok cfg t s g (s.setCursor k p) g)
    {r : Shared T × Pc T} (h : StepOk cfg t (s.setCursor k p) g r) : StepOk cfg t s g r := by
  obtain ⟨⟨g', hok', hl⟩, hans⟩ := h
  refine ⟨⟨g', hok.trans hok', hl⟩, ?_⟩
  rcases hans with htr | ⟨op, res, htr, hj⟩
  · exact .inl htr
  · refine .inr ⟨op, res, htr, ?_⟩
    exact hj

theorem head_mem (h : Inv cfg s g) (ha : s.head = some a) : a ∈ s.owned := by
  rw [h.registry.head] at ha
  exact List.mem_of_getElem? ha

theorem Linked.mem (h : Linked s y c (some a)) : a ∈ s.owned := by
  rcases h with ⟨b, hb, hb'⟩ | ⟨hc, _⟩
  · cases hb
    exact List.mem_of_getElem? hb'
  · cases hc

/-- A cursor up to the boundary is a shard of the list. -/
theorem Inv.within_cursor (h : Inv cfg s g) {r b : ℕ} (ha : s.within b (s.cursor r) = some a) :
    ∃ c, s.owned[c]? = some a ∧ c ≤ b := by
  obtain ⟨hcur, hid⟩ := Option.filter_eq_some_iff.mp ha
  obtain ⟨c, hc⟩ := List.mem_iff_getElem?.mp (h.flow.cursor r a hcur)
  rw [h.registry.ids c a hc] at hid
  exact ⟨c, hc, by simpa using hid⟩

/-- The steps of a receiving call. -/
theorem recv_ok (h : Inv cfg s g) (hl : Local cfg t s g pc) (hpc : pc.receives = true) :
    Post (StepOk cfg t s g) (step cfg t .run s pc) := by
  have hb : Bare t g := hl.bare_of_receives hpc
  have hh := hl.here
  have hR := h.registry
  cases pc with
  | rTail x =>
    obtain ⟨hx, hnil, hsize⟩ := hh
    obtain ⟨a, htail, hid⟩ := hR.tail_some
    have hpos := hR.nt_pos
    simp only [step, htail]
    rw [hid]
    refine (Ok.refl h).next (hb.toLocal rfl rfl rfl ⟨hx, hnil, hsize, by omega, fun hsec => ?_⟩) rfl
    -- nobody can be appending once the count is zero
    have hzero := hx.second hsec
    have hlock : g.lock = none := by
      cases hlk : g.lock with
      | none => rfl
      | some v =>
        obtain ⟨k, hk⟩ := h.leases.keeper v hlk
        exact absurd hzero (h.leases.pos_of_live (h.leases.lent k v hk))
    have := hR.settled hlock
    omega
  | rTake x b =>
    obtain ⟨hx, hnil, hsize, hbound, hlast⟩ := hh
    have hok : Ok cfg t s g (s.setCursor x.r none) g :=
      cursor_ok h x.r nofun
    simp only [step]
    split
    · rename_i a ha
      obtain ⟨c, hc, hcb⟩ := h.within_cursor ha
      exact hok.next (scanFrom_ok hok.inv hb (hx.setCursor none) hnil hsize hbound hlast hc hcb) rfl
    · exact hok.next
        (hb.toLocal rfl rfl rfl ⟨hx.setCursor none, hnil, hsize, hbound, hlast⟩) rfl
  | rHead x b =>
    obtain ⟨hx, hnil, hsize, hbound, hlast⟩ := hh
    obtain ⟨a, hhead, hget⟩ := hR.head_some
    simp only [step, hhead]
    exact (Ok.refl h).next
      (scanFrom_ok h hb hx hnil hsize hbound hlast hget (Nat.zero_le _)) rfl
  | rNext y w a =>
    obtain ⟨c, hst, hlt⟩ := hh
    exact (Ok.refl h).next
      (hb.toLocal rfl rfl rfl ⟨c, hst, hlt, hR.linked hst.here hst.scan.boundary⟩) rfl
  | rPop y w a next =>
    obtain ⟨c, hst, hlt, hnext⟩ := hh
    simp only [step]
    split
    · rename_i hnone
      have hempty : s.queue a = [] := by
        rcases List.take_eq_nil_iff.mp hnone with hz | hq
        · omega
        · exact hq
      refine scanNext_ok h hb hst hlt hnext fun hsec hnil i e hi he => ?_
      by_cases hic : i = c
      · subst hic
        obtain rfl : a = e := Option.some.inj (hst.here.symm.trans he)
        exact hempty
      · refine hst.drained hsec hnil i e ?_ he
        cases w with
        | false =>
          obtain ⟨h1, h2⟩ : y.startId ≤ i ∧ i < c + 1 := hi
          exact ⟨h1, by omega⟩
        | true =>
          rcases (hi : y.startId ≤ i ∧ i ≤ y.boundaryId ∨ i < c + 1) with h1 | h1
          · exact .inl h1
          · exact .inr (by omega)
    · rename_i e es hsome
      have hne : y.recv.received ++ (e :: es).map Prod.snd ≠ [] := by simp
      have hlen : (e :: es).length ≤ y.recv.size - y.recv.received.length := by
        rw [← hsome]
        exact List.length_take_le _ _
      have hsc := hst.scan
      refine (pop_ok h hsc.recv.user (List.mem_of_getElem? hst.here) _).next
        (hb.toLocal rfl rfl rfl ⟨c, ⟨{ hsc with recv := ⟨hsc.recv.user, ?_, hsc.recv.second⟩ },
          hst.here, hst.bounds, fun _ hnil => absurd hnil hne⟩, ?_, hne, hnext⟩) rfl
      · have hpop := pop_popped_self s y.recv.r a (y.recv.size - y.recv.received.length)
        rw [show (s.queue a).take _ = e :: es from hsome, ← hsc.recv.popped,
          List.append_assoc] at hpop
        exact hpop.symm
      · show (y.recv.received ++ (e :: es).map Prod.snd).length ≤ y.recv.size
        rw [List.length_append, List.length_map]
        omega
  | rCursor y w a next =>
    obtain ⟨c, hst, hle, hne, hnext⟩ := hh
    have hok : Ok cfg t s g (s.setCursor y.recv.r (next <|> s.head)) g := by
      refine cursor_ok h _ fun b hb' => ?_
      cases next with
      | some b' =>
        obtain rfl : b' = b := Option.some.inj hb'
        exact hnext.mem
      | none => exact head_mem h hb'
    have hst' := hst.setCursor (r := y.recv.r) (p := (next <|> s.head))
    have hpos : 0 < y.recv.received.length := List.length_pos_iff.mpr hne
    simp only [step]
    split
    · exact (scanned_ok hok.inv hb hst'.scan.recv (by omega) hle
        fun _ hnil => absurd hnil hne).after hok
    · exact (scanNext_ok hok.inv hb hst' (by omega) hnext
        fun _ hnil => absurd hnil hne).after hok
  | rWrap y =>
    obtain ⟨hy, hlt, hdr⟩ := hh
    obtain ⟨a₀, hhead, hget⟩ := hR.head_some
    simp only [step, hhead]
    refine scanWrapped_ok h hb hy hlt hget (Nat.zero_le _) fun hsec hnil i a hi => ?_
    exact hdr hsec hnil i a (hi.resolve_right (Nat.not_lt_zero _))
  | rRotate y =>
    obtain ⟨hy, hnil, hsize, hall⟩ := hh
    simp only [step]
    split
    · rename_i a ha
      have hmem : a ∈ s.owned := by
        have hn := hR.next _ _ hy.start
        rw [show s.next y.start = some a from ha] at hn
        split at hn
        · exact List.mem_of_getElem? hn.symm
        · cases hn
      have hok : Ok cfg t s g (s.setCursor y.recv.r (some a)) g :=
        cursor_ok h _ fun b hb' => Option.some.inj hb' ▸ hmem
      refine (scanned_ok hok.inv hb (hy.recv.setCursor _) hsize ?_ (hy.closed hall)).after hok
      rw [hnil]
      exact Nat.zero_le _
    · exact (Ok.refl h).next (hb.toLocal rfl rfl rfl ⟨hy, hnil, hsize, hall⟩) rfl
  | rRotateHead y =>
    obtain ⟨hy, hnil, hsize, hall⟩ := hh
    have hok : Ok cfg t s g (s.setCursor y.recv.r s.head) g :=
      cursor_ok h _ fun b hb' => head_mem h hb'
    refine (scanned_ok hok.inv hb (hy.recv.setCursor _) hsize ?_ (hy.closed hall)).after hok
    rw [hnil]
    exact Nat.zero_le _
  | rSenders x =>
    obtain ⟨hx, hnil, hsize, _⟩ := hh
    simp only [step]
    split
    · rename_i hzero
      exact (Ok.refl h).next
        (hb.toLocal rfl rfl rfl ⟨{ hx with second := fun _ => hzero }, hnil, hsize⟩) rfl
    · rename_i hopen
      have hhanded : ∀ r, handed r x.op (x.err .empty) = [] := fun r => x.handed_err r _
      refine ⟨⟨g, retRecv_ok h hx ((hhanded _).trans hnil.symm) fun r _ => hhanded r,
        hb.toLocal rfl rfl rfl trivial⟩, .inr ⟨_, _, rfl, hopen, ?_, x.r, x.op_receiver, ?_⟩⟩
      · rw [hnil, List.append_nil, x.op_values]
      · refine (got_ret _ _ _).trans ?_
        rw [hhanded, List.append_nil]
        have := hx.popped
        rwa [hnil, List.append_nil] at this
  | _ => simp [Pc.receives] at hpc

/-! ## The calls of a sender -/

theorem Local.lock_some (hl : Local cfg t s g pc) (h : pc.locks = true) :
    g.lock = some t := hl.lock.mpr h

/-- `Core::add_sender` with a count it has just read. -/
theorem addSender_ok (h : Inv cfg s g) (hl : Local cfg t s g pc)
    (h1 : pc.locks = false) (h2 : pc.holds = some a) (h3 : pc.drops = false)
    (hlent : t ∈ s.lent k) (hempty : s.queue a = []) (count : ℕ) :
    StepOk cfg t s g (addSender cfg s t k a count) := by
  unfold addSender
  split
  · rename_i hlt
    exact stay_ok h hl (h1 ▸ rfl) (h2 ▸ rfl) (h3 ▸ rfl) ⟨hlent, hempty, hlt⟩
  · have hlock : g.lock ≠ some t := fun hc => by
      simp [hl.lock, h1] at hc
    have hheld : g.lease a = .held t := (hl.lease a).mpr h2
    have hok := lost_ok h hheld
    refine (hok.trans (unlend_ok hok.inv hlock k)).ret ⟨hlock, fun b hb => ?_, fun hc => ?_⟩ rfl
      (fun _ => rfl) trivial
    · replace hb : update g.lease a .lost b = .held t := hb
      by_cases hba : b = a
      · subst hba
        simp [update_self] at hb
      · rw [update_of_ne hba, hl.lease, h2] at hb
        exact hba (Option.some.inj hb).symm
    · have hd : t ∈ g.dying := hc
      simp [hl.dying, h3] at hd

/-- The program counters of `Sender::clone`. -/
def Pc.clones : Pc T → Bool
  | .cLock .. | .cSpin .. | .cScan .. | .cEmpty .. | .cCas .. | .cTail .. | .cLink .. | .cStore ..
  | .cUnlock .. | .cPanic .. | .cAdd .. | .cAddCas .. => true
  | _ => false

theorem lease_held_iff {a b : Addr} (hnone : ∀ c, g.lease c ≠ .held t) :
    update g.lease a (.held t) b = .held t ↔ some a = some b := by
  by_cases hba : b = a
  · subst hba
    rw [update_self]
    exact iff_of_true rfl rfl
  · rw [update_of_ne hba]
    exact iff_of_false (hnone b) fun hc => hba (Option.some.inj hc).symm

theorem not_held (hl : Local cfg t s g pc) (h : pc.holds = none) (a : Addr) :
    g.lease a ≠ .held t := by
  rw [Ne, hl.lease, h]
  simp

/-- The steps of `Sender::clone`. -/
theorem clone_ok (h : Inv cfg s g) (hl : Local cfg t s g pc) (hpc : pc.clones = true) :
    Post (StepOk cfg t s g) (step cfg t .run s pc) := by
  have hh := hl.here
  cases pc with
  | cLock k =>
    simp only [step]
    split
    · exact stay_ok h hl rfl rfl rfl hh
    · rename_i hfree
      have hnone : g.lock = none := by
        by_contra hc
        exact hfree (h.registry.locked.mpr hc)
      refine (lock_ok h (by simpa using hfree) hh).next
        ⟨?_, ?_, ?_, hh, h.registry.settled hnone⟩ rfl
      · exact iff_of_true rfl rfl
      · exact hl.lease
      · exact hl.dying
  | cSpin k =>
    simp only [step]
    split <;> exact stay_ok h hl rfl rfl rfl hh
  | cScan k i =>
    obtain ⟨hlent, hset⟩ := hh
    simp only [step]
    split
    · rename_i a ha
      split
      · exact stay_ok h hl rfl rfl rfl ⟨hlent, hset⟩
      · rename_i hact
        exact stay_ok h hl rfl rfl rfl ⟨hlent, a, ha, by simpa using hact, hset⟩
    · split
      · trivial
      · exact stay_ok h hl rfl rfl rfl ⟨hlent, hset⟩
  | cEmpty k i =>
    obtain ⟨hlent, a, hvac⟩ := hh
    simp only [step, hvac.1]
    split
    · rename_i hemp
      exact stay_ok h hl rfl rfl rfl ⟨hlent, a, hvac, List.isEmpty_iff.mp hemp⟩
    · exact stay_ok h hl rfl rfl rfl ⟨hlent, hvac.2.2⟩
  | cCas k i =>
    obtain ⟨hlent, a, hvac, hempty⟩ := hh
    simp only [step, hvac.1, hvac.2.1]
    refine (lease_ok h (hl.lock_some rfl) (List.mem_of_getElem? hvac.1) (hvac.lease h)).next
      ⟨hl.lock, fun b => lease_held_iff (not_held hl rfl), hl.dying, hlent, ?_, hvac.2.2⟩ rfl
    exact (modShard_field Shard.queue (s := s) rfl a).trans hempty
  | cTail k a => exact stay_ok h hl rfl rfl rfl ⟨hh.1, hh.2.1, hh.2.2, rfl⟩
  | cLink k a tail =>
    obtain ⟨hlent, happ, hnl, rfl⟩ := hh
    obtain ⟨z, htail, _⟩ := h.registry.tail_some
    simp only [step, htail]
    refine (link_ok h (hl.lock_some rfl) happ.last hnl htail).next
      ⟨hl.lock, hl.lease, hl.dying, hlent, ⟨happ.last, ?_⟩, rfl⟩ rfl
    exact (modShard_field Shard.queue (s := s) rfl a).trans happ.queue
  | cStore k a =>
    obtain ⟨hlent, happ, hnl⟩ := hh
    refine (store_ok h (hl.lock_some rfl) happ.last hnl).next
      ⟨hl.lock, hl.lease, hl.dying, hlent, happ.queue, ?_⟩ rfl
    show g.nt + 1 = s.owned.length
    have := h.registry.len_le
    have := h.registry.nl_le
    omega
  | cUnlock k a =>
    obtain ⟨hlent, hempty, hset⟩ := hh
    exact (unlock_ok h (hl.lock_some rfl) hset).next
      ⟨iff_of_false (by simp) (by simp [Pc.locks]), hl.lease, hl.dying, hlent, hempty⟩ rfl
  | cPanic k =>
    obtain ⟨hlent, hset⟩ := hh
    have hok := unlock_ok h (hl.lock_some rfl) hset
    have hfree : ∀ a, g.lease a ≠ .held t := not_held hl rfl
    refine (hok.trans (unlend_ok hok.inv (by simp) k)).ret ⟨by simp, hfree, ?_⟩ rfl
      (fun _ => rfl) trivial
    exact fun hc => absurd (hl.dying.mp hc) (by simp [Pc.drops])
  | cAdd k a => exact addSender_ok h hl rfl rfl rfl hh.1 hh.2 _
  | cAddCas k a count =>
    obtain ⟨hlent, hempty, hmax⟩ := hh
    simp only [step]
    split
    · rename_i heq
      subst heq
      have hlock : g.lock ≠ some t := fun hc => absurd (hl.lock.mp hc) (by simp [Pc.locks])
      have hheld : g.lease a = .held t := (hl.lease a).mpr rfl
      have hopen := h.leases.pos_of_live (h.leases.lent k t hlent)
      have hok := unlend_ok h hlock k
      refine (hok.trans (created_ok hok.inv hheld hempty hopen hmax)).ret
        ⟨hlock, fun b hb => ?_, fun hc => absurd (hl.dying.mp hc) (by simp [Pc.drops])⟩ rfl
        (fun _ => rfl) trivial
      replace hb : update g.lease a (.live s.shardOf.length) b = .held t := hb
      by_cases hba : b = a
      · subst hba
        simp [update_self] at hb
      · rw [update_of_ne hba] at hb
        exact hba (Option.some.inj ((hl.lease b).mp hb)).symm
    · exact addSender_ok h hl rfl rfl rfl hlent hempty _
  | _ => simp [Pc.clones] at hpc

/-- The steps of `Sender::drop`. -/
theorem drop_ok (h : Inv cfg s g) (hl : Local cfg t s g pc) (hpc : pc.drops = true) :
    Post (StepOk cfg t s g) (step cfg t .run s pc) := by
  cases pc with
  | dActive k a =>
    have hheld : g.lease a = .held t := (hl.lease a).mpr rfl
    refine (unlease_ok h hheld).next ⟨hl.lock, fun b => ?_, hl.dying, trivial⟩ rfl
    refine iff_of_false (fun hc => ?_) (by simp [Pc.holds])
    have hc' : update g.lease a .free b = .held t := hc
    by_cases hba : b = a
    · subst hba
      simp [update_self] at hc'
    · rw [update_of_ne hba] at hc'
      exact hba (Option.some.inj ((hl.lease b).mp hc')).symm
  | dCount k =>
    have hfree : ∀ a, g.lease a ≠ .held t := not_held hl rfl
    refine (dropped_ok h (hl.dying.mpr rfl)).ret ⟨?_, hfree, ?_⟩ rfl (fun _ => rfl) trivial
    · exact fun hc => absurd (hl.lock.mp hc) (by simp [Pc.locks])
    · exact h.leases.dying.not_mem_erase
  | _ => simp [Pc.drops] at hpc

/-! ## Calls -/

theorem send_ok (h : Inv cfg s g) (hb : Bare t g) (k : ℕ) (vs : List T) {op : Op T}
    (hnil : ∀ r, handed r op .unit = []) : Post (StepOk cfg t s g) (send s t k vs op) := by
  unfold send
  split
  · rename_i hk
    split
    · rename_i a ha
      exact (push_ok h hk.1 ha vs).ret hb rfl hnil trivial
    · trivial
  · trivial

/-- A receiving call begins. -/
theorem recvCall_ok (h : Inv cfg s g) (hb : Bare t g) (hfree : s.user k = none)
    {m : Mode T} (hsize : 0 < (⟨k, m, false, []⟩ : Recv T).size) :
    StepOk cfg t s g (s.setUser k (some t), .rTail ⟨k, m, false, []⟩) := by
  refine (user_ok h hfree).next (hb.toLocal rfl rfl rfl ⟨⟨?_, ?_, ?_⟩, rfl, hsize⟩) rfl
  · exact update_self _ _ _
  · rw [List.append_nil]
    exact h.flow.handed k hfree
  · exact nofun

theorem call_ok (h : Inv cfg s g) (hl : Local cfg t s g .idle) (op : Op T) :
    Post (StepOk cfg t s g) (step cfg t (.call op) s .idle) := by
  have hb : Bare t g := hl.bare rfl rfl rfl
  cases op with
  | send k v => exact send_ok h hb k [v] fun _ => rfl
  | sendBatch k vs => exact send_ok h hb k vs fun _ => rfl
  | cloneSender k =>
    simp only [step]
    split
    · rename_i hk
      refine (lend_ok h hk).next (hb.toLocal rfl rfl rfl ?_) rfl
      show t ∈ update s.lent k _ k
      rw [update_self]
      exact List.mem_cons_self
    · trivial
  | dropSender k =>
    simp only [step]
    split
    · rename_i hk
      split
      · rename_i a ha
        refine (dropping_ok h hk.1 hk.2 ha hb.dying).next ⟨?_, ?_, ?_, trivial⟩ rfl
        · exact hl.lock
        · exact fun b => lease_held_iff hb.lease
        · exact iff_of_true List.mem_cons_self rfl
      · trivial
    · trivial
  | tryRecv k =>
    simp only [step]
    split
    · rename_i hk
      exact recvCall_ok h hb hk.2 Nat.one_pos
    · trivial
  | tryRecvBatchInto k vs size =>
    simp only [step]
    split
    · rename_i hk
      split
      · refine (Ok.refl h).ret hb rfl (fun r => ?_) trivial
        simp [handed]
      · rename_i hne
        exact recvCall_ok h hb hk.2 (Nat.pos_of_ne_zero hne)
    · trivial
  | cloneReceiver k =>
    simp only [step]
    split
    · have hok : Ok cfg t s g (s.setCursor s.receivers none) g :=
        cursor_ok h _ nofun
      have hok' : Ok cfg t s g
          { s.setCursor s.receivers none with receivers := s.receivers + 1 } g :=
        ⟨⟨{ hok.inv.registry with }, { hok.inv.leases with }, { hok.inv.flow with }⟩,
          fun u hu => { hok.rely u hu with }⟩
      exact hok'.ret hb rfl (fun _ => rfl) trivial
    · trivial
  | isClosed k =>
    simp only [step]
    split
    · exact (Ok.refl h).ret hb rfl (fun _ => rfl) trivial
    · trivial

/-- **Every step keeps the invariant** and records only justified results. -/
theorem step_ok (h : Inv cfg s g) (hl : Local cfg t s g pc) {act : Act T}
    {r : Shared T × Pc T} (hs : step cfg t act s pc = some r) : StepOk cfg t s g r := by
  apply Post.of hs
  cases act with
  | call op =>
    cases pc with
    | idle => exact call_ok h hl op
    | _ => cases op <;> trivial
  | run =>
    by_cases hr : pc.receives = true
    · exact recv_ok h hl hr
    · by_cases hc : pc.clones = true
      · exact clone_ok h hl hc
      · by_cases hd : pc.drops = true
        · exact drop_ok h hl hd
        · cases pc with
          | idle | fault => trivial
          | _ => first | exact absurd rfl hr | exact absurd rfl hc | exact absurd rfl hd
  | spurious =>
    cases pc with
    | cLock k => exact stay_ok h hl rfl rfl rfl hl.here
    | cAddCas k a count =>
      obtain ⟨hlent, hempty, _⟩ := hl.here
      exact addSender_ok h hl rfl rfl rfl hlent hempty _
    | _ => trivial
  | alloc a =>
    cases pc with
    | cScan k i =>
      obtain ⟨hlent, hset⟩ := hl.here
      simp only [step]
      split
      · rename_i hcond
        have hopen := h.leases.pos_of_live (h.leases.lent k t hlent)
        have hnl : g.nl = g.nt := by
          have hset' : g.nt = s.owned.length := hset
          have := h.registry.nt_le
          have := h.registry.nl_le
          omega
        refine (newShard_ok h (hl.lock_some rfl) hset hcond.2.2 hopen).next
          ⟨hl.lock, fun b => lease_held_iff (not_held hl rfl), hl.dying, hlent, ⟨?_, ?_⟩, hnl⟩ rfl
        · rw [show g.nt = s.owned.length from hset]
          exact List.getElem?_concat_length
        · show ((s.newShard a).heap a).queue = []
          rw [newShard_heap_self]
          exact rfl
      · trivial
    | _ => trivial

/-! ## All runs -/

/-- The new channel: sender 0 has the lease of the only shard. -/
def Ghost.new : Ghost where
  lease := update (fun _ => .free) 0 (.live 0)
  lock := none
  dying := []
  nl := 1
  nt := 1

theorem inv_new : Inv cfg (Shared.new : Shared T) Ghost.new where
  registry := by
    refine ⟨?_, rfl, by decide, by decide, Nat.le_refl 1, Nat.le_succ 1, rfl, ?_, rfl, ?_,
      fun _ => rfl⟩
    · intro i a ha
      obtain ⟨hi, _⟩ := List.getElem?_eq_some_iff.mp ha
      have hi' : i < 1 := hi
      show 0 = i
      omega
    · intro i a ha
      obtain ⟨hi, _⟩ := List.getElem?_eq_some_iff.mp ha
      show none = if i + 1 < 1 then _ else none
      rw [if_neg (by omega)]
    · simp [Shared.new, Ghost.new]
  leases := by
    refine ⟨?_, ?_, ?_, ?_, List.nodup_singleton 0, List.nodup_nil, rfl,
      Nat.le_add_left _ _, ?_, ?_⟩
    · intro a ha
      obtain rfl : a = 0 := by simpa [Shared.new] using ha
      exact iff_of_true rfl (by decide)
    · intro a ha
      by_contra hc
      have h0 : a ≠ 0 := by
        rintro rfl
        exact hc (List.mem_singleton_self 0)
      have hfree : update (fun _ => Lease.free) 0 (.live 0) a = .free :=
        update_of_ne h0 _ _
      exact ha hfree
    · intro a k
      show update (fun _ => Lease.free) 0 (.live 0) a = _ ↔ k ∈ [0] ∧ [0][k]? = some a
      by_cases h0 : a = 0
      · subst h0
        rw [update_self]
        constructor
        · intro hk
          obtain rfl := Lease.live.inj hk
          exact ⟨List.mem_singleton_self 0, rfl⟩
        · rintro ⟨hk, _⟩
          rw [List.mem_singleton.mp hk]
      · rw [update_of_ne h0]
        refine iff_of_false (by simp) ?_
        rintro ⟨hk, ha⟩
        rw [List.mem_singleton.mp hk] at ha
        exact h0 (Option.some.inj ha).symm
    · intro k hk
      obtain rfl := List.mem_singleton.mp hk
      exact Nat.one_pos
    · intro k u hu
      simp [Shared.new] at hu
    · intro u hu
      simp [Ghost.new] at hu
  flow := by
    refine ⟨?_, ?_, ?_, ?_, ?_, ?_, fun _ _ => rfl⟩
    · intro k a ha
      exact List.mem_of_getElem? ha
    · intro a _ e he
      simp [Shared.queue, Shared.new, Shard.new] at he
    · intro e he
      simp [Shared.new] at he
    · intro e he
      simp [Shared.new] at he
    · intro k a _
      rfl
    · intro r a ha
      simp [Shared.new] at ha

theorem local_new (u : Tid) : Local cfg u (Shared.new : Shared T) Ghost.new .idle where
  lock := iff_of_false (by simp [Ghost.new]) (by simp [Pc.locks])
  lease := fun a => by
    refine iff_of_false (fun hc => ?_) (by simp [Pc.holds])
    have hc' : update (fun _ => Lease.free) 0 (.live 0) a = .held u := hc
    by_cases h0 : a = 0
    · subst h0
      simp [update_self] at hc'
    · simp [update_of_ne h0] at hc'
  dying := iff_of_false (by simp [Ghost.new]) (by simp [Pc.drops])
  here := trivial

/-- The configurations of the channel. -/
abbrev Conf (T : Type*) := Interleave.Conf Tid (Shared T) (Pc T)

/-- **Every run keeps the invariant.** -/
theorem run_ok {c : Conf T} (hc : (system T cfg).Reachable c) :
    ∃ g, Inv cfg c.sh g ∧ ∀ u, Local cfg u c.sh g (c.pc u) := by
  refine System.rely_guarantee (system T cfg) (Inv cfg) (Local cfg) Rely
    ⟨Ghost.new, inv_new, local_new⟩ ?_ ?_ hc
  · rintro t s g p s' p' hI hL ⟨act, hs⟩
    obtain ⟨⟨g', hok, hl⟩, _⟩ := step_ok hI hL hs
    exact ⟨g', hok.inv, hl, hok.rely⟩
  · exact fun u s g s' g' p hI hI' hR hL => local_stable hI hI' hR hL

/-! ## Runs on given schedules -/

/-- Run a schedule of the channel from the start. -/
def exec (cfg : Config) (sched : List (Tid × Act T)) : Option (Conf T) :=
  System.runs (step cfg) sched (system T cfg).start

theorem exec_reachable {sched : List (Tid × Act T)} {c : Conf T}
    (h : exec cfg sched = some c) : (system T cfg).Reachable c :=
  System.runs_reachable .start h

/-- Thread `t` calls `op` and then takes `n` steps. -/
def calls (t : Tid) (op : Op T) (n : ℕ) : List (Tid × Act T) :=
  (t, .call op) :: List.replicate n (t, .run)

end Lubq
