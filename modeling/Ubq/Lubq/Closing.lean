/-
# Closed detection

A receiving call answers `Disconnected` only in a state in which no sender is left
and every shard is empty.  Such a state stays so: the count of senders is final, no
shard is added, and nothing is pushed.  A call that starts in it finds all shards
empty twice and returns `Disconnected` as well, after a number of its own steps that
the number of shards bounds, whatever the other threads do.
-/
import Ubq.Lubq.Safety

namespace Lubq

open Function

variable {T : Type*} {cfg : Config} {t u : Tid} {s s' : Shared T} {g g' : Ghost}
variable {pc : Pc T} {op : Op T} {y : Scan T} {x : Recv T} {c c' : Conf T}

/-! ## Closed is forever -/

theorem Closed.live (h : Inv cfg s g) (hcl : Closed s) : s.live = [] := by
  apply List.eq_nil_of_length_eq_zero
  have := h.leases.count
  have := hcl.senders
  omega

/-- A step of a closed channel. -/
theorem Closed.step (hcl : Closed s) (hok : Ok cfg t s g s' g') :
    Closed s' ∧ s'.owned = s.owned ∧ s'.shardOf = s.shardOf := by
  have hR := hok.rely (t + 1) (Nat.succ_ne_self t)
  obtain ⟨hz, howned, hshard⟩ := hR.zero hcl.senders
  refine ⟨⟨hz, fun a ha => ?_⟩, howned, hshard⟩
  rw [howned] at ha
  exact hR.quiet a ha (hcl.empty a ha) (.inr (.inr hcl.senders))

theorem closed_moves (hc : (system T cfg).Reachable c) (hcl : Closed c.sh)
    (hm : (system T cfg).Moves t c c') :
    Closed c'.sh ∧ c'.sh.owned = c.sh.owned ∧ c'.sh.shardOf = c.sh.shardOf := by
  obtain ⟨g, hI, hL⟩ := run_ok hc
  obtain ⟨s', p', ⟨act, hs⟩, rfl⟩ := hm
  obtain ⟨⟨g', hok, _⟩, _⟩ := step_ok hI (hL t) hs
  exact hcl.step hok

/-- **A closed channel stays closed**, with the same shards and senders. -/
theorem closed_along {ts : List Tid} (hc : (system T cfg).Reachable c)
    (hcl : Closed c.sh) (h : (system T cfg).Along c ts c') :
    Closed c'.sh ∧ c'.sh.owned = c.sh.owned ∧ c'.sh.shardOf = c.sh.shardOf := by
  induction h with
  | nil => exact ⟨hcl, rfl, rfl⟩
  | snoc hpre hm ih =>
    obtain ⟨hcl', ho, hs⟩ := ih
    obtain ⟨hcl'', ho', hs'⟩ := closed_moves (hpre.reachable hc) hcl' hm
    exact ⟨hcl'', ho'.trans ho, hs'.trans hs⟩

/-! ## Calls on a closed channel -/

/-- The receiving call that a program counter is inside of. -/
def Pc.recv : Pc T → Option (Recv T)
  | .rTail x | .rTake x _ | .rHead x _ | .rSenders x => some x
  | .rNext y _ _ | .rPop y _ _ _ | .rCursor y _ _ _ | .rWrap y | .rRotate y | .rRotateHead y =>
    some y.recv
  | _ => none

/-- How far a scan over `n` empty shards is from its end. -/
def scanRank (s : Shared T) (n : ℕ) : Pc T → ℕ
  | .rTail _ => 4 * n + 12
  | .rTake .. => 4 * n + 11
  | .rHead .. => 4 * n + 10
  | .rNext _ false a => 2 * n + 4 + 2 * (n - (s.heap a).id) + 1
  | .rPop _ false a _ => 2 * n + 4 + 2 * (n - (s.heap a).id)
  | .rWrap _ => 2 * n + 4
  | .rNext _ true a => 2 + 2 * (n - (s.heap a).id) + 1
  | .rPop _ true a _ => 2 + 2 * (n - (s.heap a).id)
  | .rRotate _ => 2
  | .rRotateHead _ => 1
  | _ => 0

/-- How far a receiving call on a closed channel with `n` shards is from its return. -/
def rank (s : Shared T) (n : ℕ) (pc : Pc T) : ℕ :=
  match pc.recv with
  | some x => (if x.second then 0 else 4 * n + 13) + scanRank s n pc
  | none => 0

/-- The thread is inside the call `op` and has received nothing. -/
structure Late (op : Op T) (pc : Pc T) : Prop where
  inside : ∃ x, pc.recv = some x ∧ x.op = op ∧ x.received = []

/-- The call `op` returns `Disconnected` and leaves the caller's vector alone. -/
def Disconnects (t : Tid) (op : Op T) (s : Shared T) (r : Shared T × Pc T) : Prop :=
  r.1.trace = s.trace ++ [(t, op, .error .disconnected op.values)]

/-- A step of such a call. -/
def LateStep (t : Tid) (s : Shared T) (op : Op T) (pc : Pc T) (r : Shared T × Pc T) : Prop :=
  (r.1.trace = s.trace ∧ Late op r.2 ∧ rank r.1 s.owned.length r.2 < rank s s.owned.length pc) ∨
    Disconnects t op s r

theorem rank_eq (pc : Pc T) (h : pc.recv = some x) (s : Shared T) (n : ℕ) :
    rank s n pc = (if x.second then 0 else 4 * n + 13) + scanRank s n pc := by
  unfold rank
  rw [h]

theorem scanned_late {s₁ : Shared T} (htr : s₁.trace = s.trace)
    (hnil : x.received = []) (hpc : pc.recv = some x)
    (hrank : 0 < scanRank s s.owned.length pc) : LateStep t s x.op pc (scanned s₁ t x) := by
  unfold scanned
  split
  · refine .inl ⟨htr, ⟨x, rfl, rfl, hnil⟩, ?_⟩
    rw [rank_eq pc hpc, rank_eq (.rSenders x) rfl]
    exact Nat.add_lt_add_left hrank _
  · refine .inr ?_
    show s₁.trace ++ [(t, x.op, .error .disconnected (x.values ++ x.received))] = _
    rw [htr, hnil, List.append_nil, x.op_values]
  · rename_i hcons
    simp [hnil] at hcons

/-- On to another shard of the list. -/
theorem next_late (hnil : y.recv.received = []) {pc pc' : Pc T}
    (hpc : pc.recv = some y.recv) (hpc' : pc'.recv = some y.recv)
    (hrank : scanRank s s.owned.length pc' < scanRank s s.owned.length pc) :
    LateStep t s y.recv.op pc (s, pc') := by
  refine .inl ⟨rfl, ⟨y.recv, hpc', rfl, hnil⟩, ?_⟩
  rw [rank_eq pc hpc, rank_eq pc' hpc']
  exact Nat.add_lt_add_left hrank _

theorem scanEnd_late (hnil : y.recv.received = [])
    (hpc : pc.recv = some y.recv) (hrank : 2 < scanRank s s.owned.length pc) :
    LateStep t s y.recv.op pc (scanEnd s t y) := by
  have hend : scanEnd s t y = (s, .rRotate y) := by
    unfold scanEnd
    rw [hnil]
  rw [hend]
  exact next_late hnil hpc rfl hrank

theorem scanWrapped_late (h : Inv cfg s g) (hnil : y.recv.received = [])
    (hpc : pc.recv = some y.recv) {a : Addr} {c : ℕ} (ha : s.owned[c]? = some a)
    (hrank : 2 + 2 * (s.owned.length - c) + 1 < scanRank s s.owned.length pc) :
    LateStep t s y.recv.op pc (scanWrapped s t y (some a)) := by
  have hid := h.registry.ids c a ha
  simp only [scanWrapped, hid]
  split
  · exact scanEnd_late hnil hpc (by omega)
  · refine next_late hnil hpc rfl ?_
    simp only [scanRank, hid]
    exact hrank

/-- A scan of empty shards moves on. -/
theorem scanNext_late (h : Inv cfg s g) {w : Bool} {a : Addr} {c : ℕ}
    (hst : Standing t s g y w a c) (hnil : y.recv.received = []) {next : Option Addr}
    (hnext : Linked s y c next) :
    LateStep t s y.recv.op (.rPop y w a next) (scanNext s t y w a next) := by
  have hid := h.registry.ids c a hst.here
  have hlt := (List.getElem?_eq_some_iff.mp hst.here).1
  have hle := hst.scan.start_le
  cases w with
  | false =>
    obtain ⟨hge, hle'⟩ : y.startId ≤ c ∧ c ≤ y.boundaryId := hst.bounds
    simp only [scanNext, hid]
    split
    · refine next_late hnil rfl rfl ?_
      simp only [scanRank, hid]
      omega
    · rcases hnext with ⟨b, rfl, hb⟩ | ⟨_, hbad⟩
      · have hid' := h.registry.ids _ b hb
        rw [within_eq h hb (by omega)]
        simp only [scanFrom, hid']
        rw [if_neg (by omega)]
        refine next_late hnil rfl rfl ?_
        simp only [scanRank, hid, hid']
        omega
      · omega
  | true =>
    have hlts : c < y.startId := hst.bounds
    rcases hnext with ⟨b, rfl, hb⟩ | ⟨_, hbad⟩
    · simp only [scanNext]
      rw [within_eq h hb (by omega)]
      refine scanWrapped_late h hnil rfl hb ?_
      simp only [scanRank, hid]
      omega
    · omega

/-- **A step of a call on a closed channel** brings it closer to `Disconnected`, and
such a step can be taken. -/
theorem late_step (h : Inv cfg s g) (hcl : Closed s) (hl : Local cfg t s g pc)
    (hlate : Late op pc) :
    ∃ r, step cfg t .run s pc = some r ∧ LateStep t s op pc r := by
  obtain ⟨x, hpc, rfl, hnil⟩ := hlate
  have hh := hl.here
  have hR := h.registry
  obtain ⟨a₀, hhead, hget⟩ := hR.head_some
  obtain ⟨z, htail, _⟩ := hR.tail_some
  -- the first visited shard, at position `c`
  have hstart : ∀ (b c : ℕ) (a : Addr), s.owned[c]? = some a → c ≤ b → ∀ s' : Shared T,
      s'.heap = s.heap → s'.trace = s.trace →
        4 * s.owned.length + 9 < scanRank s s.owned.length pc →
      LateStep t s x.op pc (s', scanFrom s ⟨x, b, a, (s.heap a).id⟩ (some a)) := by
    intro b c a hc hcb s' hheap htr hrank
    have hid := hR.ids c a hc
    simp only [scanFrom, hid]
    rw [if_neg (by omega)]
    refine .inl ⟨htr, ⟨x, rfl, rfl, hnil⟩, ?_⟩
    rw [rank_eq pc hpc, rank_eq (.rNext _ false a) rfl]
    apply Nat.add_lt_add_left
    refine Nat.lt_of_le_of_lt ?_ hrank
    simp only [scanRank, hheap, hid]
    omega
  cases pc with
  | rTail x' =>
    obtain rfl := Option.some.inj hpc
    simp only [step, htail]
    refine ⟨_, rfl, .inl ⟨rfl, ⟨x', rfl, rfl, hnil⟩, ?_⟩⟩
    exact Nat.add_lt_add_left (Nat.lt_succ_self _) _
  | rTake x' b =>
    obtain rfl := Option.some.inj hpc
    simp only [step]
    split
    · rename_i a ha
      obtain ⟨c, hc, hcb⟩ := h.within_cursor ha
      refine ⟨_, rfl, hstart b c a hc hcb _ rfl rfl ?_⟩
      simp only [scanRank]
      omega
    · refine ⟨_, rfl, .inl ⟨rfl, ⟨x', rfl, rfl, hnil⟩, ?_⟩⟩
      exact Nat.add_lt_add_left (Nat.lt_succ_self _) _
  | rHead x' b =>
    cases hpc
    simp only [step, hhead]
    refine ⟨_, rfl, hstart b 0 _ hget (Nat.zero_le _) s rfl rfl ?_⟩
    simp only [scanRank]
    omega
  | rNext y w a =>
    cases hpc
    refine ⟨_, rfl, next_late hnil rfl rfl ?_⟩
    cases w <;> exact Nat.lt_succ_self _
  | rPop y w a next =>
    cases hpc
    obtain ⟨c, hst, _, hnext⟩ := hh
    have hempty : (s.heap a).queue = [] := hcl.empty a (List.mem_of_getElem? hst.here)
    refine ⟨_, ?_, scanNext_late h hst hnil hnext⟩
    simp only [step, hempty, List.take_nil]
  | rCursor y w a next =>
    cases hpc
    obtain ⟨_, _, _, hne, _⟩ := hh
    exact absurd hnil hne
  | rWrap y =>
    cases hpc
    simp only [step, hhead]
    refine ⟨_, rfl, scanWrapped_late h hnil rfl hget ?_⟩
    simp only [scanRank]
    omega
  | rRotate y =>
    cases hpc
    simp only [step]
    split
    · rename_i a ha
      have htr : (s.setCursor y.recv.r (some a)).trace = s.trace := rfl
      exact ⟨_, rfl, scanned_late htr hnil rfl (by simp [scanRank])⟩
    · exact ⟨_, rfl, next_late hnil rfl rfl (by simp only [scanRank]; omega)⟩
  | rRotateHead y =>
    cases hpc
    have htr : (s.setCursor y.recv.r s.head).trace = s.trace := rfl
    exact ⟨_, rfl, scanned_late htr hnil rfl (by simp [scanRank])⟩
  | rSenders x' =>
    cases hpc
    simp only [step, hcl.senders, if_true]
    refine ⟨_, rfl, .inl ⟨rfl, ⟨_, rfl, rfl, hnil⟩, ?_⟩⟩
    obtain ⟨_, _, _, hsec⟩ := hh
    simp only [rank, Pc.recv, scanRank, hsec]
    simp
  | _ => simp [Pc.recv] at hpc

/-! ## Later calls -/

/-- A receiving call has no other choice than to run. -/
theorem run_of_recv (hx : pc.recv = some x) {act : Act T}
    {r : Shared T × Pc T} (hs : step cfg t act s pc = some r) : act = .run := by
  cases pc with
  | rTail | rTake | rHead | rNext | rPop | rCursor | rWrap | rRotate | rRotateHead | rSenders =>
    cases act with
    | run => rfl
    | call op => cases op <;> exact absurd hs (by simp [step])
    | spurious | alloc => simp [step] at hs
  | _ => simp [Pc.recv] at hx

/-- The rank of a waiting thread does not change while others move. -/
theorem rank_stable (h : Inv cfg s g) (h' : Inv cfg s' g') (howned : s'.owned = s.owned)
    (hl : Local cfg u s g pc) (n : ℕ) : rank s' n pc = rank s n pc := by
  have hid : ∀ (c : ℕ) (a : Addr), s.owned[c]? = some a → (s'.heap a).id = (s.heap a).id := by
    intro c a ha
    rw [h.registry.ids c a ha]
    exact h'.registry.ids c a (howned ▸ ha)
  have hh := hl.here
  cases pc with
  | rNext y w a =>
    obtain ⟨c, hst, _⟩ := hh
    have := hid c a hst.here
    cases w <;> simp only [rank, Pc.recv, scanRank, this]
  | rPop y w a next =>
    obtain ⟨c, hst, _⟩ := hh
    have := hid c a hst.here
    cases w <;> simp only [rank, Pc.recv, scanRank, this]
  | _ => rfl

/-- The first call of `u` that has returned since the trace had length `n`. -/
def answered (u : Tid) (n : ℕ) (s : Shared T) : Option (Tid × Op T × Res T) :=
  (s.trace.drop n).find? (·.1 = u)

theorem answered_congr {n : ℕ} (h : s'.trace = s.trace) : answered u n s' = answered u n s := by
  unfold answered
  rw [h]

theorem answered_append {n : ℕ} {e : Tid × Op T × Res T} (hn : n ≤ s.trace.length)
    (h : s'.trace = s.trace ++ [e]) :
    answered u n s' = (answered u n s).or (if e.1 = u then some e else none) := by
  unfold answered
  rw [h, List.drop_append_of_le_length hn, List.find?_append]
  congr 1
  by_cases he : e.1 = u <;> simp [he]

/-- A call on a closed channel, among the steps of others: it has returned
`Disconnected`, or it is still on its way and has used up some of its rank. -/
theorem late_along {ts : List Tid}
    (hc : (system T cfg).Reachable c) (hcl : Closed c.sh) (hlate : Late op (c.pc u))
    (h : (system T cfg).Along c ts c') :
    c.sh.trace.length ≤ c'.sh.trace.length ∧
      (answered u c.sh.trace.length c'.sh = some (u, op, .error .disconnected op.values) ∨
        answered u c.sh.trace.length c'.sh = none ∧ Late op (c'.pc u) ∧
          rank c'.sh c.sh.owned.length (c'.pc u) + ts.count u ≤
            rank c.sh c.sh.owned.length (c.pc u)) := by
  induction h with
  | nil =>
    refine ⟨Nat.le_refl _, .inr ⟨?_, hlate, Nat.le_refl _⟩⟩
    unfold answered
    rw [List.drop_length]
    rfl
  | @snoc ts c₁ c₂ v hpre hm ih =>
    obtain ⟨hlen, hor⟩ := ih
    have hc₁ := hpre.reachable hc
    obtain ⟨hcl₁, howned₁, _⟩ := closed_along hc hcl hpre
    obtain ⟨_, howned₂, _⟩ := closed_moves hc₁ hcl₁ hm
    obtain ⟨g₂, hI₂, _⟩ := run_ok (hc₁.step hm)
    obtain ⟨g, hI, hL⟩ := run_ok hc₁
    obtain ⟨s', p', ⟨act, hs⟩, rfl⟩ := hm
    obtain ⟨_, hans⟩ := step_ok hI (hL v) hs
    have hlen' : c.sh.trace.length ≤ s'.trace.length := by
      rcases hans with htr | ⟨_, _, htr, _⟩
      · rwa [htr]
      · rw [htr, List.length_append]
        exact Nat.le_add_right_of_le hlen
    refine ⟨hlen', ?_⟩
    rcases hor with hdone | ⟨hnone, hlate₁, hrank⟩
    · -- the answer stays the first one
      left
      rcases hans with htr | ⟨_, _, htr, _⟩
      · rwa [answered_congr htr]
      · rw [answered_append hlen htr, hdone]
        rfl
    · by_cases hv : v = u
      · subst hv
        obtain ⟨r, hr, hstep⟩ := late_step hI hcl₁ (hL v) hlate₁
        obtain ⟨x, hx, _⟩ := id hlate₁
        have hrun := run_of_recv hx hs
        subst hrun
        obtain rfl : (s', p') = r := Option.some.inj (hs.symm.trans hr)
        rcases hstep with ⟨htr, hlate₂, hlt⟩ | htr
        · right
          rw [answered_congr htr]
          refine ⟨hnone, by simpa using hlate₂, ?_⟩
          rw [howned₁] at hlt
          simp only [update_self, List.count_append, List.count_singleton_self]
          have hlt' : rank s' c.sh.owned.length p' < rank c₁.sh c.sh.owned.length (c₁.pc v) := hlt
          omega
        · left
          rw [answered_append hlen htr, hnone]
          simp
      · right
        have hpc : update c₁.pc v p' u = c₁.pc u := update_of_ne (Ne.symm hv) _ _
        refine ⟨?_, ?_, ?_⟩
        · rcases hans with htr | ⟨_, _, htr, _⟩
          · rwa [answered_congr htr]
          · rw [answered_append hlen htr, hnone]
            simp [hv]
        · show Late op (update c₁.pc v p' u)
          rwa [hpc]
        · show rank s' _ (update c₁.pc v p' u) + _ ≤ _
          rw [hpc, rank_stable hI hI₂ howned₂ (hL u), List.count_append,
            List.count_singleton, if_neg (by simpa using hv)]
          exact hrank

/-- A receiving call that asks for at least one value. -/
def Op.Asks : Op T → Prop
  | .tryRecv _ => True
  | .tryRecvBatchInto _ _ size => 1 ≤ size
  | _ => False

/-- Such a call starts with nothing received. -/
theorem late_call (hop : op.Asks) {r : Shared T × Pc T}
    (hs : step cfg t (.call op) s .idle = some r) : Late op r.2 ∧ r.1.trace = s.trace := by
  cases op with
  | tryRecv k =>
    simp only [step] at hs
    split at hs
    · cases hs
      exact ⟨⟨_, rfl, rfl, rfl⟩, rfl⟩
    · cases hs
  | tryRecvBatchInto k vs size =>
    have hpos : 1 ≤ size := hop
    simp only [step] at hs
    split at hs
    · rw [if_neg (by omega)] at hs
      cases hs
      exact ⟨⟨_, rfl, rfl, rfl⟩, rfl⟩
    · cases hs
  | _ => simp [Op.Asks] at hop

open Interleave.System (Takes)

/-- The call `op` of `u`, made in `c`, returns `Disconnected`: it is the first call
of `u` to return, and it returns after a bounded number of steps of `u`, each of which
`u` can take, whatever the other threads do in between. -/
def WillDisconnect (cfg : Config) (c : Conf T) (u : Tid) (op : Op T) : Prop :=
  ∀ c₁, Takes (step cfg) u (.call op) c c₁ → ∃ bound, ∀ ts c₂, (system T cfg).Along c₁ ts c₂ →
    answered u c.sh.trace.length c₂.sh = some (u, op, .error .disconnected op.values) ∨
      answered u c.sh.trace.length c₂.sh = none ∧ ts.count u ≤ bound ∧
        ∃ c₃, (system T cfg).Moves u c₂ c₃

theorem will_disconnect {c : Conf T} (hc : (system T cfg).Reachable c) (hcl : Closed c.sh)
    (hop : op.Asks) (hidle : c.pc u = .idle) : WillDisconnect cfg c u op := by
  rintro c₁ ⟨s', p', hs, rfl⟩
  rw [hidle] at hs
  obtain ⟨hlate, htr⟩ := late_call hop hs
  have hm : (system T cfg).Moves u c ⟨s', update c.pc u p'⟩ :=
    ⟨s', p', ⟨_, hidle ▸ hs⟩, rfl⟩
  have hc₁ := hc.step hm
  have hcl₁ := (closed_moves hc hcl hm).1
  have hlate' : Late op (update c.pc u p' u) := by
    rwa [update_self]
  refine ⟨rank s' s'.owned.length (update c.pc u p' u), fun ts c₂ halong => ?_⟩
  obtain ⟨_, hor⟩ := late_along hc₁ hcl₁ hlate' halong
  have hlen : s'.trace.length = c.sh.trace.length := congrArg List.length htr
  rw [hlen] at hor
  rcases hor with hdone | ⟨hnone, hlate₂, hrank⟩
  · exact .inl hdone
  · right
    refine ⟨hnone, Nat.le_trans (Nat.le_add_left _ _) hrank, ?_⟩
    obtain ⟨g, hI, hL⟩ := run_ok (halong.reachable hc₁)
    obtain ⟨r, hr, _⟩ := late_step hI (closed_along hc₁ hcl₁ halong).1 (hL u) hlate₂
    exact ⟨_, r.1, r.2, ⟨_, hr⟩, rfl⟩

/-- **Closed detection is sound.**  A call that returns `Empty` has read a nonzero
sender count, has left the caller's vector as it was, and its receiver has popped
nothing that an earlier call did not return.  From the moment a call returns
`Disconnected`, in every run: no sender is alive, no sender has been created, every
shard is empty, and every call for at least one value returns `Disconnected`. -/
theorem closed_sound {c c' : Conf T} (hc : (system T cfg).Reachable c) {t : Tid}
    (hm : (system T cfg).Moves t c c') {vec : List T} :
    (c'.sh.trace = c.sh.trace ++ [(t, op, .error .empty vec)] → c.sh.senders ≠ 0 ∧
      vec = op.values ∧ ∃ r, op.receiver = some r ∧ c'.sh.got r = c'.sh.popped r) ∧
    (c'.sh.trace = c.sh.trace ++ [(t, op, .error .disconnected vec)] → vec = op.values ∧
      ∀ ts c₁, (system T cfg).Along c' ts c₁ → c₁.sh.live = [] ∧
        c₁.sh.shardOf = c'.sh.shardOf ∧ (∀ a ∈ c₁.sh.owned, c₁.sh.queue a = []) ∧
        ∀ u op', op'.Asks → c₁.pc u = .idle → WillDisconnect cfg c₁ u op') := by
  have hc' := hc.step hm
  obtain ⟨g, hI, hL⟩ := run_ok hc
  obtain ⟨s', p', ⟨act, hs⟩, rfl⟩ := hm
  obtain ⟨_, hans⟩ := step_ok hI (hL t) hs
  have hres : ∀ e, s'.trace = c.sh.trace ++ [(t, op, .error e vec)] →
      Justified c.sh s' op (.error e vec) := by
    intro e htr
    rcases hans with hsame | ⟨op', res, htr', hj⟩
    · have := congrArg List.length (hsame.symm.trans htr)
      simp at this
    · have heq := List.append_cancel_left (htr'.symm.trans htr)
      simp only [List.cons.injEq, Prod.mk.injEq, true_and, and_true] at heq
      obtain ⟨rfl, rfl⟩ := heq
      exact hj
  refine ⟨fun htr => hres .empty htr, fun htr => ?_⟩
  obtain ⟨hcl, hvec⟩ := hres .disconnected htr
  refine ⟨hvec, fun ts c₁ halong => ?_⟩
  have hc₁ := halong.reachable hc'
  obtain ⟨hcl₁, _, hshard⟩ := closed_along hc' hcl halong
  obtain ⟨g₁, hI₁, _⟩ := run_ok hc₁
  exact ⟨hcl₁.live hI₁, hshard, hcl₁.empty, fun u op' hop hidle =>
    will_disconnect hc₁ hcl₁ hop hidle⟩

/-- One value is sent and the only sender dropped; the second `try_recv` reports it. -/
theorem closed_sound_drained : ∃ c c' : Conf ℕ, (system ℕ ⟨10⟩).Reachable c ∧
    (system ℕ ⟨10⟩).Moves 0 c c' ∧
    c'.sh.trace = c.sh.trace ++ [(0, .tryRecv 0, .error .disconnected [])] ∧
    c'.sh.live = [] ∧ WillDisconnect ⟨10⟩ c' 1 (.tryRecvBatchInto 0 [3] 2) := by
  obtain ⟨c, s', hexec, hstep, htr, hidle⟩ : ∃ (c : Conf ℕ) (s' : Shared ℕ),
      exec ⟨10⟩ (calls 0 (.send 0 7) 0 ++ calls 0 (.dropSender 0) 2 ++ calls 0 (.tryRecv 0) 6 ++
        calls 0 (.tryRecv 0) 14) = some c ∧
      step ⟨10⟩ 0 .run c.sh (c.pc 0) = some (s', .idle) ∧
      s'.trace = c.sh.trace ++ [(0, .tryRecv 0, .error .disconnected [])] ∧ c.pc 1 = .idle :=
    ⟨_, _, rfl, rfl, rfl, rfl⟩
  have hm : (system ℕ ⟨10⟩).Moves 0 c ⟨s', update c.pc 0 .idle⟩ :=
    ⟨s', .idle, ⟨.run, hstep⟩, rfl⟩
  obtain ⟨_, hdis⟩ := closed_sound (exec_reachable hexec) hm
  obtain ⟨hlive, _, _, hlater⟩ := (hdis htr).2 [] _ .nil
  exact ⟨c, _, exec_reachable hexec, hm, htr, hlive,
    hlater 1 (.tryRecvBatchInto 0 [3] 2) (show 1 ≤ 2 by decide) hidle⟩

end Lubq
