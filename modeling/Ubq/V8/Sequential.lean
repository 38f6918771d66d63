/-
# The v8 queue on one thread

Runs in which only thread `t` moves.  `Behaves` is the list specification of a
trace of finished calls; `SoloAt` is what a lone thread knows at each program
counter beyond the concurrent proof outline: its snapshots are current, its
claims are as long as possible, and what it has moved out so far is the front
of the list.  `solo_step` shows that every step keeps it, so the trace of every
run on one thread behaves as a list (`solo_behaves`).

Spurious failures and the addresses handed out by the allocator stay arbitrary.
-/
import Ubq.V8.Delivery

namespace V8

open Function Interleave

variable {T : Type*} {cfg : Config} {t u : Tid} {s s' : Shared T} {g g' : Ghost T}
variable {pc : Pc T} {r : Read T} {p : ℕ}

/-! ## The list specification -/

/-- One call on the list `q`: its result and the list it leaves. -/
def Spec (q : List T) : Op T → Res T → List T → Prop
  | .writeFrom src, res, q' => res = .left [] ∧ q' = q ++ src
  | .readInto cap, res, q' => res = .out (q.take cap) ∧ q' = q.drop cap
  | .flushFreelist, res, q' => (∃ n, res = .freed n) ∧ q' = q

/-- The last finished call flushed the freelist. -/
def Flushed (tr : List (Tid × Op T × Res T)) : Prop :=
  ∃ e, tr.getLast? = some e ∧ e.2.1 = .flushFreelist

/-- The calls of a trace, run on the empty list, give these results and leave
the list `q`; a flush right after a flush frees nothing. -/
inductive Behaves : List (Tid × Op T × Res T) → List T → Prop
  | nil : Behaves [] []
  | call {tr : List (Tid × Op T × Res T)} {q q' : List T} {t : Tid} {op : Op T} {res : Res T} :
      Behaves tr q → Spec q op res q' →
      (Flushed tr → op = .flushFreelist → res = .freed 0) → Behaves (tr ++ [(t, op, res)]) q'

theorem not_flushed {tr : List (Tid × Op T × Res T)} {t : Tid} {op : Op T} {res : Res T}
    (hop : op ≠ .flushFreelist) : ¬ Flushed (tr ++ [(t, op, res)]) := by
  rintro ⟨e, he, hflush⟩
  rw [List.getLast?_append] at he
  obtain rfl : (t, op, res) = e := by simpa using he
  exact hop hflush

/-- The values in the queue: reserved and not claimed. -/
def Shared.contents (s : Shared T) : List T := s.sent.drop s.claimedLen

/-! ## What a lone thread knows -/

/-- The trace so far leaves the queue's contents. -/
def Settled (s : Shared T) : Prop := Behaves s.trace s.contents

/-- The values `src` are reserved; the call is not finished yet. -/
def Sending (s : Shared T) (src : List T) : Prop :=
  ∃ q, Behaves s.trace q ∧ s.contents = q ++ src

/-- A claim that takes all it can: the room asked for, all there is, or the rest
of the block. -/
def Greedy (cfg : Config) (s : Shared T) (cap index newIndex : ℕ) : Prop :=
  newIndex / 2 - index / 2 = cap ∨
    s.claimedLen + (newIndex / 2 - index / 2) = s.sent.length ∨
    isSentinel cfg (newIndex / 2) = true

/-- The claim of `r` starts at position `b`, where the finished calls left the
queue, and takes all it can; the output is the front of the queue. -/
def Fetching (cfg : Config) (s : Shared T) (r : Read T) : Prop :=
  ∃ b, Behaves s.trace (s.sent.drop b) ∧ s.claimedLen = b + r.len ∧
    (r.len = r.cap ∨ s.claimedLen = s.sent.length) ∧
    r.out = (s.sent.drop b).take r.out.length ∧
    (r.written < r.len → cfg.pos r.token r.vblock r.offset = b + r.written)

/-- A claim that crosses a block boundary, from the position of `r` on. -/
def Crossing (cfg : Config) (s : Shared T) (r : Read T) : Prop :=
  Behaves s.trace (s.sent.drop (cfg.pos r.token r.vblock r.offset))

/-- What a lone thread knows inside `acquire`. -/
def AcqSolo (s : Shared T) : AcqRet T → Prop
  | .first _ index _ | .more _ index _ _ => Settled s ∧ index = s.producerIndex
  | .root .. => False

/-- What a lone thread knows inside `take`. -/
def TakeSolo (s : Shared T) : TakeRet T → Prop
  | .acquire ret _ _ => AcqSolo s ret
  | .flush => Settled s

/-- The assertion of a lone thread at each program counter. -/
def SoloAt (cfg : Config) (s : Shared T) : Pc T → Prop
  | .idle => Settled s ∧ (Flushed s.trace → s.freelist = .ptr none)
  | .fault => False
  | .wIndex _ | .wReIndex _ _ | .rIndex _ => Settled s
  | .wBlock _ index | .wLoop _ index _ _ | .wReBlock _ index _ | .wCas _ index _ _ =>
    Settled s ∧ index = s.producerIndex
  | .wRoot .. | .wRootStore .. => False
  | .wSeg w | .wNext w | .wCopy w _ _ | .wPublish w _ | .wDrop w | .apFind w _ _ _
  | .apLink w _ _ _ => Sending s w.src
  | .apWalk a | .apHas a | .apBlock a _ | .apIndex a _ => Sending s a.w.src
  | .tLoad ret => TakeSolo s ret ∧ (ret = .flush → Flushed s.trace → s.freelist = .ptr none)
  | .tCas ret head => TakeSolo s ret ∧ (ret = .flush → ¬ Flushed s.trace) ∧
      s.freelist = .ptr (some head)
  | .tWalk ret _ _ => TakeSolo s ret ∧ (ret = .flush → ¬ Flushed s.trace)
  | .aAlloc ret _ _ => AcqSolo s ret
  | .fDrop blocks freed => Settled s ∧ s.freelist = .ptr none ∧
      (Flushed s.trace → blocks = [] ∧ freed = 0)
  | .rBlock _ index | .rLoop _ index _ | .rPidx _ index _ => Settled s ∧ index = s.consumerIndex
  | .rCas cap index _ newIndex => Settled s ∧ index = s.consumerIndex ∧
      Greedy cfg s cap index newIndex
  | .rPending r produced => Fetching cfg s r ∧ produced ≠ cfg.ns ∧
      ∃ a, r.block = some a ∧ produced = ((s.heap a).vblock r.vblock).produced
  | .rSeg r | .rProduced r | .rCopy r _ | .rNext r | .rConsume r _ => Fetching cfg s r
  | .rVblocks r next | .cReset r next _ | .cLoad r next _ | .cFree r next _ =>
    0 < r.count cfg ∧ Fetching cfg s (r.advance cfg next)
  | .cLink r next _ head =>
    0 < r.count cfg ∧ Fetching cfg s (r.advance cfg next) ∧ s.freelist = head
  | .cPush r next _ head =>
    0 < r.count cfg ∧ Fetching cfg s (r.advance cfg next) ∧ s.freelist = .ptr head
  | .acLoad r _ => Crossing cfg s r
  | .acLoop r _ pidx _ | .acNext r _ pidx _ => Crossing cfg s r ∧ pidx = s.producerIndex / 2
  | .acBlock r _ _ | .acIndex r _ => Crossing cfg s r ∧ (r.len = r.cap ∨
      cfg.pos r.token r.vblock r.offset + r.len = s.sent.length)

/-- The other threads are idle: they hold no head and owe no value. -/
structure Alone (t : Tid) (g : Ghost T) : Prop where
  prod : ∀ u, u ≠ t → g.pown ≠ some u
  cons : ∀ u, u ≠ t → g.cown ≠ some u
  free : ∀ u, u ≠ t → g.fown ≠ some u
  pending : ∀ u, u ≠ t → g.L.Pending u 0 0

theorem Alone.pown_none (ha : Alone t g) (hl : Local cfg t s g pc)
    (hpc : pc.holdsP = false) : g.pown = none :=
  eq_none_of_ne_some (fun hc => by simp [hl.holdsP.mp hc] at hpc) ha.prod

theorem Alone.cown_none (ha : Alone t g) (hl : Local cfg t s g pc)
    (hpc : pc.holdsC = false) : g.cown = none :=
  eq_none_of_ne_some (fun hc => by simp [hl.holdsC.mp hc] at hpc) ha.cons

/-- A lone thread outside `take` finds the freelist unlocked. -/
theorem Alone.not_busy (h : Inv cfg s g) (ha : Alone t g) (hl : Local cfg t s g pc)
    (hpc : pc.holdsF = false) : s.freelist ≠ .busy := by
  intro hb
  apply h.busy_iff.mp hb
  exact eq_none_of_ne_some (fun hc => by simp [hl.holdsF.mp hc] at hpc) ha.free

/-- Outside its own copy loop a lone thread finds everything published. -/
theorem Alone.published (h : Inv cfg s g) (ha : Alone t g) (hl : Local cfg t s g pc)
    (hpc : pc.writing = false) (hp : p < g.L.ppos) : ∃ x, g.L.prod p = .published x := by
  refine h.ledger.published_of_settled hp fun u v hc => ?_
  by_cases hut : u = t
  · subst hut
    exact absurd (hl.pending hpc p v hc).2 (by omega)
  · exact absurd (ha.pending u hut p v hc).2 (by omega)

/-! ## Steps of `write_from` and of the freelist -/

/-- A dereference that does not fault follows the pointer. -/
theorem deref_calm {Q : Shared T × Pc T → Prop} {p : Option Addr} {k : Addr → Shared T × Pc T}
    (hk : ∀ a, p = some a → Q (k a)) : Post (fun r => r.2 ≠ .fault → Q r) (deref s p k) :=
  deref_post (fun _ hfault => absurd rfl hfault) fun a ha _ => hk a ha

theorem addAssign_heap (s : Shared T) (l l' : List Addr) :
    ∃ heap', (s.addAssign l l').1 = { s with heap := heap' } := by
  unfold Shared.addAssign
  split
  · exact ⟨s.heap, rfl⟩
  · exact ⟨_, rfl⟩

theorem resume_solo {ret : AcqRet T} (h : AcqSolo s ret) (acc : List Addr) :
    SoloAt cfg (resume s ret acc).1 (resume s ret acc).2 := by
  cases ret with
  | first src index block => exact h
  | root src index blocks => exact h.elim
  | more src index block blocks =>
    obtain ⟨heap', hs⟩ := addAssign_heap s blocks acc
    show Settled (s.addAssign blocks acc).1 ∧ index = (s.addAssign blocks acc).1.producerIndex
    rwa [hs]

theorem acquire_solo (ret : AcqRet T) (h : AcqSolo s ret) (n : ℕ) :
    SoloAt cfg (acquire s ret n).1 (acquire s ret n).2 := by
  unfold acquire
  split
  · exact resume_solo h []
  · exact ⟨h, nofun⟩

theorem took_solo {ret : TakeRet T} (h : TakeSolo s ret) {cached : List Addr}
    (hflush : ret = .flush → s.freelist = .ptr none ∧ (Flushed s.trace → cached = [])) :
    SoloAt cfg (took s ret cached).1 (took s ret cached).2 := by
  cases ret with
  | flush =>
    obtain ⟨hfree, hnil⟩ := hflush rfl
    exact ⟨h, hfree, fun hf => ⟨hnil hf, rfl⟩⟩
  | acquire ret blocks remaining =>
    obtain ⟨heap', hs⟩ := addAssign_heap s blocks cached
    have hacq : AcqSolo (s.addAssign blocks cached).1 ret := by
      rw [hs]
      cases ret <;> exact h
    simp only [took]
    split
    · exact resume_solo hacq _
    · exact hacq

/-- Reading the freelist head in `take`. -/
theorem reload_solo {ret : TakeRet T} (hT : TakeSolo s ret)
    (hflush : ret = .flush → Flushed s.trace → s.freelist = .ptr none)
    (hbusy : s.freelist ≠ .busy) :
    Post (fun r => r.2 ≠ .fault → SoloAt cfg r.1 r.2) (step cfg t .run s (.tLoad ret)) := by
  refine reload_post (fun a hfree _ => ⟨hT, fun hret hf => ?_, hfree⟩) fun hnot _ => ?_
  · simp [hflush hret hf] at hfree
  · refine took_solo hT fun _ => ⟨?_, fun _ => rfl⟩
    cases hfree : s.freelist with
    | busy => exact absurd hfree hbusy
    | ptr p =>
      cases p with
      | none => rfl
      | some a => exact absurd hfree (hnot a)

theorem provision_solo {src : List T} {index : ℕ} {block : Option Addr} {blocks : List Addr}
    (h : Settled s ∧ index = s.producerIndex) :
    SoloAt cfg (provision cfg s src index block blocks).1
      (provision cfg s src index block blocks).2 := by
  simp only [provision]
  split
  · exact acquire_solo (.more src index block blocks) h _
  · exact h

theorem claimedLen_le (h : Inv cfg s g) : s.claimedLen ≤ s.sent.length := by
  rw [h.hist.claim_len, h.hist.sent_len]
  exact h.cpos_le

/-- A reservation appends its values to the contents. -/
theorem sent_append (s s' : Shared T) {u : Tid} {vs : List T}
    (hs : s'.reservations = s.reservations ++ [(u, p, vs)]) : s'.sent = s.sent ++ vs := by
  unfold Shared.sent
  rw [hs, List.map_append, List.flatten_append]
  simp

theorem reserved_solo (h : Inv cfg s g) (hset : Settled s) (src : List T) (index : ℕ)
    (block : Option Addr) (blocks : List Addr) :
    SoloAt cfg (reserved cfg t s src index block blocks).1
      (reserved cfg t s src index block blocks).2 := by
  have hsending : ∀ s' : Shared T, s'.trace = s.trace → s'.claims = s.claims →
      (∃ p, s'.reservations = s.reservations ++ [(t, p, src)]) → Sending s' src := by
    rintro s' htrace hclaims ⟨p, hresv⟩
    refine ⟨s.contents, by rw [htrace]; exact hset, ?_⟩
    unfold Shared.contents
    rw [sent_append s s' hresv, show s'.claimedLen = s.claimedLen by
      unfold Shared.claimedLen; rw [hclaims], List.drop_append_of_le_length (claimedLen_le h)]
  simp only [reserved]
  split
  · exact hsending _ rfl rfl ⟨_, rfl⟩
  · exact hsending _ rfl rfl ⟨_, rfl⟩

/-- `write_from`, `advance_producer`, `take`, `acquire` and `flush`. -/
theorem write_solo (h : Inv cfg s g) (hl : Local cfg t s g pc) (ha : Alone t g)
    (hsolo : SoloAt cfg s pc) (hpc : pc.reading = false) :
    Post (fun r => r.2 ≠ .fault → SoloAt cfg r.1 r.2) (step cfg t .run s pc) := by
  cases pc with
  | wIndex src => exact fun _ => ⟨hsolo, rfl⟩
  | wBlock src index => exact fun _ => acquire_solo (.first src index s.producerBlock) hsolo _
  | wLoop src index block blocks =>
    simp only [step]
    split
    · exact fun _ => hsolo.1
    · rw [if_neg (by simpa using hl.here.2.1.2.1)]
      exact fun _ => provision_solo hsolo
  | wReIndex src blocks => exact fun _ => ⟨hsolo, rfl⟩
  | wCas src index block blocks =>
    simp only [step]
    split
    · exact fun _ => reserved_solo h hsolo.1 src index block blocks
    · exact fun _ => ⟨hsolo.1, rfl⟩
  | wSeg w =>
    simp only [step]
    split_ifs <;> exact fun _ => hsolo
  | wCopy w next i =>
    simp only [step]
    split
    · split
      · trivial
      · exact deref_calm fun _ _ => hsolo
    · exact fun _ => hsolo
  | wNext | wPublish | apHas => exact deref_calm fun _ _ => hsolo
  | wDrop w =>
    cases hb : w.blocks with
    | nil =>
      simp only [step, hb]
      obtain ⟨q, hq, hcont⟩ := hsolo
      refine fun _ => ⟨?_, fun hf => absurd hf (not_flushed (by simp))⟩
      refine Behaves.call hq ⟨?_, hcont⟩ (fun _ hc => absurd hc (by simp))
      rw [hl.here.2.1, List.drop_length]
    | cons b rest =>
      simp only [step, hb]
      exact fun _ => hsolo
  | apFind w token curr blocks =>
    refine deref_calm fun a _ => ?_
    split <;> exact hsolo
  | apWalk a =>
    simp only [step]
    split
    · exact deref_calm fun _ _ => hsolo
    · exact fun _ => hsolo
  | wReBlock | apLink | apBlock | apIndex => exact fun _ => hsolo
  | tLoad ret => exact reload_solo hsolo.1 hsolo.2 (ha.not_busy h hl rfl)
  | tCas ret head =>
    obtain ⟨hT, hnf, hfree⟩ := hsolo
    simp only [step, if_pos hfree]
    refine fun _ => ⟨?_, hnf⟩
    cases ret with
    | flush => exact hT
    | acquire ret acc n => cases ret <;> exact hT
  | tWalk ret taken rest =>
    obtain ⟨hT, hnf⟩ := hsolo
    have hsever : ∀ rest', (ret = .flush → rest' = none) →
        (step.severed s ret taken rest').2 ≠ .fault →
        SoloAt cfg (step.severed s ret taken rest').1 (step.severed s ret taken rest').2 := by
      intro rest' hrest hne
      unfold step.severed at hne ⊢
      split at hne
      · exact absurd rfl hne
      · apply took_solo
        · cases ret with
          | flush => exact hT
          | acquire ret acc n => cases ret <;> exact hT
        · intro hret
          refine ⟨?_, fun hf => absurd hf (hnf hret)⟩
          rw [hrest hret]
    cases rest with
    | none => exact hsever none fun _ => rfl
    | some a =>
      simp only [step]
      split
      · exact fun _ => ⟨hT, hnf⟩
      · rename_i hstop
        refine hsever (some a) fun hret => ?_
        subst hret
        exact absurd rfl hstop
  | fDrop blocks freed =>
    obtain ⟨hset, hfree, hnil⟩ := hsolo
    cases blocks with
    | nil =>
      refine fun _ => ⟨Behaves.call hset ⟨⟨freed, rfl⟩, rfl⟩ (fun hf _ => ?_), fun _ => hfree⟩
      rw [(hnil hf).2]
    | cons b rest => exact fun _ => ⟨hset, hfree, fun hf => absurd (hnil hf).1 (by simp)⟩
  | wRoot | wRootStore | fault => exact hsolo.elim
  | idle | aAlloc => trivial
  | _ => simp [Pc.reading] at hpc

/-! ## Steps of `read_into` -/

/-- With the flag set the claim is clipped by the room asked for or by the block. -/
theorem greedy_flag {cap index : ℕ} :
    Greedy cfg s cap index (reserveIndex cfg (index / 2 / cfg.stride)
      (index / 2 % cfg.stride / cfg.ns) (index / 2 % cfg.stride % cfg.ns) cap (index % 2)) := by
  have hstride := cfg.cap_lt_stride
  obtain ⟨hsplit, _⟩ := ridx_split cfg (index / 2)
  rw [reserveIndex_eq]
  unfold Greedy
  rw [word_div_two cfg (by omega), isSentinel_iff cfg (by omega)]
  omega

/-- Without the flag it may also be clipped by the producer's position. -/
theorem greedy_clamp (h : Inv cfg s g) (hown : g.pown = none) {cap : ℕ}
    (hslot : OnSlot cfg s.consumerIndex) :
    Greedy cfg s cap s.consumerIndex (clampIndex cfg
      (reserveIndex cfg (s.consumerIndex / 2 / cfg.stride)
        (s.consumerIndex / 2 % cfg.stride / cfg.ns) (s.consumerIndex / 2 % cfg.stride % cfg.ns) cap
        (s.consumerIndex % 2))
      (s.consumerIndex / 2 / cfg.stride) (s.producerIndex / 2)) := by
  have hstride := cfg.cap_lt_stride
  have hp := h.phead
  unfold ProdHead at hp
  rw [hown] at hp
  obtain ⟨po, pf, hpo, hpf, hpidx, hppos, _⟩ := hp
  obtain ⟨_, off, f, hoff, hf, hcidx, hcpos, _⟩ := chead_onSlot h hslot
  have hcp := cidx_le_pidx h
  have hlen : s.claimedLen = g.ck * cfg.cap + off := h.hist.claim_len.trans hcpos
  have hsent : s.sent.length = g.pk * cfg.cap + po := h.hist.sent_len.trans hppos
  have hci : s.consumerIndex / 2 = cfg.stride * g.ck + off := by rw [hcidx, word_div_two cfg hf]
  have hpi : s.producerIndex / 2 = cfg.stride * g.pk + po := by rw [hpidx, word_div_two cfg hpf]
  have htok : s.consumerIndex / 2 / cfg.stride = g.ck := by
    rw [hci, ridx_div_stride cfg (by omega)]
  have hmod : s.consumerIndex / 2 % cfg.stride = off := by
    rw [hci, Nat.mul_add_mod, Nat.mod_eq_of_lt (by omega)]
  rw [htok, hmod, reserveIndex_eq]
  unfold clampIndex Greedy
  rw [hpi, ridx_div_stride cfg (by omega)]
  by_cases hsame : g.ck = g.pk
  · rw [if_pos hsame, hlen, hsent]
    rw [hsame] at hci ⊢
    have hnew : 2 * (min (cfg.word g.pk (min (off + cap) cfg.cap) (s.consumerIndex % 2))
        (2 * (cfg.stride * g.pk + po)) / 2) / 2
        = cfg.stride * g.pk + min (min (off + cap) cfg.cap) po := by
      unfold Config.word
      omega
    rw [hnew, hci]
    omega
  · rw [if_neg hsame]
    have hnew : (2 * (cfg.word g.ck (min (off + cap) cfg.cap) (s.consumerIndex % 2) / 2) + 1) / 2
        = cfg.stride * g.ck + min (off + cap) cfg.cap := by
      unfold Config.word
      omega
    rw [hnew, isSentinel_iff cfg (by omega), hci]
    omega

theorem claimedLen_append (s s' : Shared T) {u : Tid} {p n : ℕ}
    (hs : s'.claims = s.claims ++ [(u, p, n)]) : s'.claimedLen = s.claimedLen + n := by
  unfold Shared.claimedLen
  rw [hs, List.map_append, List.sum_append]
  simp

theorem claimed_solo (h : Inv cfg s g) {cap : ℕ} {block : Option Addr} {newIndex : ℕ}
    (hslot : OnSlot cfg s.consumerIndex) (hset : Settled s)
    (hgreedy : Greedy cfg s cap s.consumerIndex newIndex) :
    SoloAt cfg (claimed cfg t s cap s.consumerIndex block newIndex).1
      (claimed cfg t s cap s.consumerIndex block newIndex).2 := by
  have hstride := cfg.cap_lt_stride
  obtain ⟨_, off, f, hoff, hf, hcidx, hcpos, _⟩ := chead_onSlot h hslot
  have hci : s.consumerIndex / 2 = cfg.stride * g.ck + off := by rw [hcidx, word_div_two cfg hf]
  have hdec : decodeIndex (s.consumerIndex / 2) cfg.ns cfg.nv
      = (g.ck, off / cfg.ns, off % cfg.ns) := by
    rw [hci, decodeIndex_eq cfg (by omega)]
  have hpos : cfg.pos g.ck (off / cfg.ns) (off % cfg.ns) = s.claimedLen := by
    rw [cfg.pos_div_mod, h.hist.claim_len, hcpos]
  unfold claimed
  rw [hdec]
  simp only
  split
  · show Behaves s.trace (s.sent.drop (cfg.pos g.ck (off / cfg.ns) (off % cfg.ns)))
    rwa [hpos]
  · rename_i hnot
    refine ⟨s.claimedLen, hset, claimedLen_append s _ rfl, ?_, rfl, fun _ => hpos⟩
    rcases hgreedy with hn | hn | hn
    · exact Or.inl hn
    · exact Or.inr ((claimedLen_append s _ rfl).trans hn)
    · exact absurd hn hnot

/-- The published value of a position is the one in the list of reserved values. -/
theorem sent_of_published (h : Inv cfg s g) {x : T} (hp : g.L.prod p = .published x) :
    s.sent[p]? = some x := by
  have hlt : p < s.sent.length := by
    rw [h.hist.sent_len]
    exact h.ledger.reserved_lt (by rw [hp]; simp)
  have hget : s.sent[p]? = some s.sent[p] := List.getElem?_eq_getElem hlt
  have hval := h.hist.log.sent_val p _ hget
  rw [hp] at hval
  rw [hget]
  exact hval.symm

/-- What a consumer moves out of its segment is the next value of the queue. -/
theorem rCopy_value (h : Inv cfg s g) {i : ℕ} (hd : Draining cfg t s g r i)
    (hi : i < r.count cfg) {a : Addr} (ha : r.block = some a) {v : T}
    (hv : (s.heap a).slots r.vblock (r.offset + i) = some v) :
    s.sent[cfg.pos r.token r.vblock r.offset + i]? = some v := by
  obtain ⟨_, _, _, _, hat, _, _, _, hclaim, hpub⟩ := hd
  have hcount := r.count_le cfg
  have hoff : r.offset + i < cfg.ns := by omega
  have hcell := hclaim i (le_refl _) (by omega)
  obtain ⟨a', hblock, hlive⟩ := live_of_cell h hat hoff (by rw [hcell]; simp)
  obtain rfl : a = a' := Option.some.inj (ha.symm.trans hblock)
  obtain ⟨x, hx⟩ := hpub i hi
  have hslot := (h.content a _ hlive).slots r.vblock (r.offset + i) x hat.2.2.1 hoff
    (Or.inl (by rw [← pos_add]; exact hx))
  rw [hslot] at hv
  rw [← Option.some.inj hv]
  exact sent_of_published h hx

/-- The next segment starts where this one ends. -/
theorem pos_advance {next : Option Addr} (ho : r.offset < cfg.ns)
    (hmore : r.written + r.count cfg < r.len) :
    cfg.pos (r.advance cfg next).token (r.advance cfg next).vblock (r.advance cfg next).offset
      = cfg.pos r.token r.vblock r.offset + r.count cfg := by
  have hcount : r.count cfg = cfg.ns - r.offset := by
    unfold Read.count at hmore ⊢
    omega
  show cfg.pos (if r.vblock + 1 = cfg.nv then r.token + 1 else r.token)
    (if r.vblock + 1 = cfg.nv then 0 else r.vblock + 1) 0 = _
  rw [hcount]
  unfold Config.pos
  split
  · rename_i hv
    have h1 : (r.token + 1) * cfg.cap = r.token * cfg.cap + cfg.cap := by ring
    have h2 : cfg.cap = r.vblock * cfg.ns + cfg.ns := by
      unfold Config.cap
      rw [← hv]
      ring
    omega
  · have h1 : (r.vblock + 1) * cfg.ns = r.vblock * cfg.ns + cfg.ns := by ring
    omega

theorem Fetching.advance {next : Option Addr} (hf : Fetching cfg s r)
    (ho : r.offset < cfg.ns) (hlt : r.written < r.len) : Fetching cfg s (r.advance cfg next) := by
  obtain ⟨b, hb, hlen, hmax, hout, hpos⟩ := hf
  refine ⟨b, hb, hlen, hmax, hout, fun hmore => ?_⟩
  rw [pos_advance ho hmore, hpos hlt]
  show b + r.written + r.count cfg = b + (r.written + r.count cfg)
  omega

/-- `read_into` returns the front of the list. -/
theorem fetched_solo (hf : Fetching cfg s r) (hout : r.out.length = r.len)
    (hcap : r.len ≤ r.cap) :
    SoloAt cfg (ret s t (.readInto r.cap) (.out r.out)).1
      (ret s t (.readInto r.cap) (.out r.out)).2 := by
  obtain ⟨b, hb, hlen, hmax, htake, _⟩ := hf
  refine ⟨?_, fun hfl => absurd hfl (not_flushed (by simp))⟩
  have hends : r.len = r.cap ∨ (s.sent.drop b).length ≤ r.cap ∧ (s.sent.drop b).length = r.len := by
    rw [List.length_drop]
    omega
  refine Behaves.call hb ⟨?_, ?_⟩ nofun
  · rw [htake, hout]
    rcases hends with heq | ⟨hle, heq⟩
    · rw [heq]
    · rw [List.take_of_length_le hle, List.take_of_length_le (le_of_eq heq)]
  · show s.sent.drop s.claimedLen = (s.sent.drop b).drop r.cap
    rw [List.drop_drop, hlen]
    rcases hends with heq | ⟨hle, heq⟩
    · rw [heq]
    · rw [List.length_drop] at hle heq
      rw [List.drop_eq_nil_of_le (by omega), List.drop_eq_nil_of_le (by omega)]

/-- One iteration of the walk of `advance_consumer`. -/
theorem advanceLoop_solo (h : Inv cfg s g) (hown : g.pown = none)
    {newIndex pidx : ℕ} {blk : Option Addr} (hlock : r.len ≤ r.cap)
    (hscan : Scanning cfg s g r newIndex pidx blk) (hcross : Crossing cfg s r)
    (hp : pidx = s.producerIndex / 2) :
    SoloAt cfg s (advanceLoop cfg r newIndex pidx blk) := by
  obtain ⟨n, o, pt, po, hidx, ho, hpidx, hpo, _, _, _, hn, _, _, hlen⟩ := hscan
  have hstride := cfg.cap_lt_stride
  -- nobody moves the producer head, so the position read is still current
  have hppos : s.sent.length = pt * cfg.cap + po := by
    have hph := h.phead
    unfold ProdHead at hph
    rw [hown] at hph
    obtain ⟨off, f, hoff, hf, hidx', hpos, _⟩ := hph
    rw [hp, hidx', word_div_two cfg hf] at hpidx
    obtain ⟨hk, hoeq⟩ := ridx_inj cfg (by omega) (by omega) hpidx
    rw [h.hist.sent_len, hpos, hk, hoeq]
  unfold advanceLoop
  simp only [hidx, hpidx, ridx_div cfg (show o < cfg.stride by omega),
    ridx_div cfg (show po < cfg.stride by omega)]
  split
  · rename_i hsame
    subst hsame
    obtain rfl : o = 0 := by omega
    refine ⟨hcross, ?_⟩
    show r.len + _ = r.cap ∨ cfg.pos r.token r.vblock r.offset + (r.len + _) = s.sent.length
    rw [hppos]
    omega
  · split
    · exact ⟨hcross, hpidx ▸ hp⟩
    · split
      · refine ⟨hcross, Or.inl ?_⟩
        show r.len + _ = r.cap
        omega
      · exact ⟨hcross, hpidx ▸ hp⟩

/-- `acIndex` publishes the claim of a crossing. -/
theorem crossed_solo (h : Inv cfg s g) {newIndex : ℕ}
    (hl : Local cfg t s g (.acIndex r newIndex)) (hcross : Crossing cfg s r)
    (hmax : r.len = r.cap ∨ cfg.pos r.token r.vblock r.offset + r.len = s.sent.length)
    (s' : Shared T) (htrace : s'.trace = s.trace) (hresv : s'.reservations = s.reservations)
    (hclaims : s'.claims = s.claims ++ [(t, (r.token + 1) * cfg.cap,
      r.len - (cfg.cap - (r.vblock * cfg.ns + r.offset)))]) : Fetching cfg s' r := by
  obtain ⟨⟨hck, hout, hwritten, _, hat, _⟩, n, o, _, _, _, _, _, _, _, htok, _, hlen⟩ := hl.here
  have hsent : s'.sent = s.sent := by
    unfold Shared.sent
    rw [hresv]
  have hcpos := (cpos_locked h (hl.holdsC.mpr rfl)).2
  have hroom := cfg.offset_lt_cap hat.2.2.1 hat.2.2.2
  have hmul := token_mul_le cfg htok
  have htotal : s'.claimedLen = cfg.pos r.token r.vblock r.offset + r.len := by
    rw [claimedLen_append s s' hclaims, h.hist.claim_len, hcpos, hck]
    unfold Config.pos at hlen ⊢
    omega
  refine ⟨cfg.pos r.token r.vblock r.offset, ?_, htotal, ?_, ?_, fun _ => ?_⟩
  · rwa [htrace, hsent]
  · rwa [htotal, hsent]
  · rw [hout]
    rfl
  · rw [hwritten, Nat.add_zero]

/-- `read_into`, `advance_consumer` and `recycle`. -/
theorem read_solo (h : Inv cfg s g) (hl : Local cfg t s g pc) (ha : Alone t g)
    (hsolo : SoloAt cfg s pc) (hpc : pc.reading = true) :
    Post (fun r => r.2 ≠ .fault → SoloAt cfg r.1 r.2) (step cfg t .run s pc) := by
  cases pc with
  | rIndex cap => exact fun _ => ⟨hsolo, rfl⟩
  | rLoop cap index block =>
    simp only [step, decodeIndex_split]
    split
    · exact fun _ => hsolo.1
    split
    · exact fun _ => hsolo
    split
    · exact fun _ => hsolo.1
    · exact fun _ => ⟨hsolo.1, hsolo.2, greedy_flag⟩
  | rPidx cap index block =>
    obtain ⟨hset, rfl⟩ := hsolo
    obtain ⟨_, hsnap, hslot, _⟩ := hl.here
    simp only [step, decodeIndex_split]
    split
    · rename_i heq
      have hnil : s.contents = [] := by
        unfold Shared.contents
        rw [(level_of_snapshot h hslot hsnap.1 heq).2, List.drop_length]
      have hb : Behaves s.trace [] := hnil ▸ hset
      refine fun _ => ⟨?_, fun hf => absurd hf (not_flushed (by simp))⟩
      refine Behaves.call hb ⟨by simp, ?_⟩ (fun _ hc => absurd hc (by simp))
      rw [List.drop_nil]
      exact hnil
    split
    · exact fun _ => hset
    · exact fun _ => ⟨hset, rfl, greedy_clamp h (ha.pown_none hl rfl) hslot⟩
  | rCas cap index block newIndex =>
    obtain ⟨hset, rfl, hgreedy⟩ := hsolo
    simp only [step, if_true]
    exact fun _ => claimed_solo h hl.here.2.2.1 hset hgreedy
  | rSeg r =>
    simp only [step]
    split
    · exact fun _ => hsolo
    · obtain ⟨hout, hle, hcap, _⟩ := hl.here
      exact fun _ => fetched_solo hsolo (by omega) hcap
  | rProduced r =>
    refine deref_calm fun a hblock => ?_
    dsimp only
    split
    · exact hsolo
    · rename_i hne
      exact ⟨hsolo, hne, a, hblock, rfl⟩
  | rPending r produced =>
    simp only [step]
    split <;> exact fun _ => hsolo.1
  | rCopy r i =>
    simp only [step]
    split
    · rename_i hi
      refine deref_post (fun _ hfault => absurd rfl hfault) fun a hblock => ?_
      split
      · exact fun hfault => absurd rfl hfault
      · rename_i v hv
        have hval := rCopy_value h hl.here hi hblock hv
        have hout := hl.here.1
        obtain ⟨b, hb, hlen, hmax, htake, hpos⟩ := hsolo
        refine fun _ => ⟨b, hb, hlen, hmax, ?_, hpos⟩
        have hnext : (s.sent.drop b)[r.out.length]? = some v := by
          rwa [List.getElem?_drop, hout, ← Nat.add_assoc, ← hpos hl.here.2.1]
        show r.out ++ [v] = (s.sent.drop b).take (r.out ++ [v]).length
        rw [List.length_append, List.length_singleton, List.take_add_one, hnext, ← htake]
        rfl
    · split <;> exact fun _ => hsolo
  | rConsume r next =>
    refine deref_calm fun a _ => ?_
    obtain ⟨⟨_, hlt, _, _, hat, _⟩, _⟩ := hl.here
    have hadv : Fetching cfg s (r.advance cfg next) := Fetching.advance hsolo hat.2.2.2 hlt
    have hoff := hat.2.2.2
    have hcount : 0 < r.count cfg := by
      unfold Read.count
      omega
    dsimp only
    split
    · exact ⟨hcount, hadv⟩
    · exact hadv
  | rVblocks r next =>
    refine deref_calm fun a _ => ?_
    dsimp only
    split
    · exact hsolo
    · exact hsolo.2
  | acLoad r newIndex =>
    simp only [step]
    split
    · exact fun _ => hsolo
    · exact fun _ => ⟨hsolo, rfl⟩
  | acLoop r newIndex pidx blk =>
    obtain ⟨⟨_, _, _, hcap, _⟩, hscan⟩ := hl.here
    exact fun _ => advanceLoop_solo h (ha.pown_none hl rfl) hcap hscan hsolo.1 hsolo.2
  | rNext | acNext => exact deref_calm fun _ _ => hsolo
  | rBlock | acBlock | cReset => exact fun _ => hsolo
  | acIndex r newIndex => exact fun _ => crossed_solo h hl hsolo.1 hsolo.2 _ rfl rfl rfl
  | cLoad r next b => exact fun _ => ⟨hsolo.1, hsolo.2, rfl⟩
  | cLink r next b head =>
    obtain ⟨hcount, hfetch, rfl⟩ := hsolo
    cases hfree : s.freelist with
    | busy =>
      simp only [step]
      exact fun _ => ⟨hcount, hfetch⟩
    | ptr p =>
      simp only [step]
      exact fun _ => ⟨hcount, hfetch, hfree⟩
  | cPush r next b head =>
    simp only [step, if_pos hsolo.2.2]
    exact fun _ => hsolo.2.1
  | cFree r next b => exact fun _ => hsolo.2
  | _ => simp [Pc.reading] at hpc

/-! ## Every step, every run -/

theorem call_solo (hsolo : SoloAt cfg s .idle) {op : Op T} :
    Post (fun r => r.2 ≠ .fault → SoloAt cfg r.1 r.2) (step cfg t (.call op) s .idle) := by
  obtain ⟨hset, hflush⟩ := hsolo
  cases op with
  | writeFrom src =>
    simp only [step]
    split
    · rename_i hnil
      have hsrc : src = [] := by simpa using hnil
      subst hsrc
      refine fun _ => ⟨?_, fun hf => absurd hf (not_flushed (by simp))⟩
      refine Behaves.call hset ⟨rfl, ?_⟩ (fun _ hc => absurd hc (by simp))
      rw [List.append_nil]
      rfl
    · exact fun _ => hset
  | readInto cap =>
    simp only [step]
    split
    · rename_i hzero
      subst hzero
      refine fun _ => ⟨?_, fun hf => absurd hf (not_flushed (by simp))⟩
      exact Behaves.call hset ⟨by simp, rfl⟩ (fun _ hc => absurd hc (by simp))
    · exact fun _ => hset
  | flushFreelist => exact fun _ => ⟨hset, fun _ => hflush⟩

/-- **One step of a lone thread.** -/
theorem solo_step (h : Inv cfg s g) (hl : Local cfg t s g pc) (ha : Alone t g)
    (hsolo : SoloAt cfg s pc) {act : Act T} {r : Shared T × Pc T}
    (hs : step cfg t act s pc = some r) (hfault : r.2 ≠ .fault) : SoloAt cfg r.1 r.2 := by
  revert hfault
  apply Post.of hs
  cases act with
  | call op =>
    cases pc with
    | idle => exact call_solo hsolo
    | _ => cases op <;> trivial
  | run =>
    cases hpc : pc.reading with
    | false => exact write_solo h hl ha hsolo hpc
    | true => exact read_solo h hl ha hsolo hpc
  | spurious =>
    cases pc with
    | wCas | rCas => exact fun _ => ⟨hsolo.1, rfl⟩
    | tCas ret head =>
      exact reload_solo (t := t) hsolo.1 (fun hret hf => absurd hf (hsolo.2.1 hret))
        (ha.not_busy h hl rfl)
    | cPush r next b head => exact fun _ => ⟨hsolo.1, hsolo.2.1, rfl⟩
    | _ => trivial
  | alloc a =>
    cases pc with
    | aAlloc ret acc n =>
      have hacq : AcqSolo ((s.alloc a).modBlock a (·.setNext acc.head?)) ret := by
        cases ret <;> exact hsolo
      simp only [step]
      split
      · trivial
      split
      · exact fun _ => resume_solo hacq _
      · exact fun _ => ⟨hacq, fun hc => absurd hc (by simp)⟩
    | _ => trivial

/-- The runs in which only thread `t` moves. -/
def solo (T : Type*) (cfg : Config) (t : Tid) : System Tid (Shared T) (Pc T) :=
  (system T cfg).restrict fun u _ _ _ _ => u = t

theorem alone_of_idle {c : Conf T} (hL : ∀ u, Local cfg u c.sh g (c.pc u))
    (hidle : ∀ u, u ≠ t → c.pc u = .idle) : Alone t g := by
  have hlocal : ∀ u, u ≠ t → Local cfg u c.sh g .idle := fun u hu => hidle u hu ▸ hL u
  refine ⟨fun u hu hc => ?_, fun u hu hc => ?_, fun u hu hc => ?_, fun u hu => ?_⟩
  · exact absurd ((hlocal u hu).holdsP.mp hc) (by simp [Pc.holdsP])
  · exact absurd ((hlocal u hu).holdsC.mp hc) (by simp [Pc.holdsC])
  · exact absurd ((hlocal u hu).holdsF.mp hc) (by simp [Pc.holdsF])
  · exact (hlocal u hu).pending rfl

/-- What holds in every configuration of a run on one thread. -/
structure Solo (cfg : Config) (t : Tid) (c : Conf T) (g : Ghost T) : Prop where
  inv : Inv cfg c.sh g
  here : Local cfg t c.sh g (c.pc t)
  alone : Alone t g
  solo : SoloAt cfg c.sh (c.pc t)

/-- **Every run on one thread keeps the lone thread's assertions.** -/
theorem solo_ok {c : Conf T} (hc : (solo T cfg t).Reachable c) : ∃ g, Solo cfg t c g := by
  have hall : (∀ u, u ≠ t → c.pc u = .idle) ∧ SoloAt cfg c.sh (c.pc t) := by
    induction hc with
    | start =>
      refine ⟨fun _ _ => rfl, Behaves.nil, ?_⟩
      rintro ⟨e, he, _⟩
      exact absurd he (by simp [System.start, solo, System.restrict, system,
        System.ofStep, Shared.new])
    | @step c c' u hc hm ih =>
      obtain ⟨hidle, hsolo⟩ := ih
      have hc' : (system T cfg).Reachable c' :=
        System.restrict_reachable (hc.step hm)
      obtain ⟨s', p', ⟨⟨act, hs⟩, rfl⟩, rfl⟩ := hm
      obtain ⟨g, hI, hL⟩ := run_ok (System.restrict_reachable hc)
      obtain ⟨g', _, hL'⟩ := run_ok hc'
      have hl' : Local cfg u s' g' (update c.pc u p' u) := hL' u
      rw [update_self] at hl'
      refine ⟨fun v hv => ?_, ?_⟩
      · show update c.pc u p' v = .idle
        rw [update_of_ne hv]
        exact hidle v hv
      · show SoloAt cfg s' (update c.pc u p' u)
        rw [update_self]
        refine solo_step hI (hL u) (alone_of_idle hL hidle) hsolo hs ?_
        rintro rfl
        exact hl'.here
  obtain ⟨g, hI, hL⟩ := run_ok (System.restrict_reachable hc)
  exact ⟨g, hI, hL t, alone_of_idle hL hall.1, hall.2⟩

end V8
