/-
# No call on one thread spins forever

A ranking of the program counters for a lone thread.  Every step that is not a
spurious failure of `compare_exchange_weak` lowers the rank or ends the call:
the retry loops of the heads, the wait for the producers and the wait in
`advance_consumer` never go round, and the remaining loops run over a batch, a
private list or a chain.  Together with `solo_ok` this is the sequential
correctness of the queue (`sequential`).
-/
import Ubq.V8.Sequential

namespace V8

open Function Interleave

variable {T : Type*} {cfg : Config} {t u : Tid} {s s' : Shared T} {g g' : Ghost T}
variable {act : Act T} {r : Read T} {pc : Pc T} {c : Conf T}

/-! ## The rank -/

/-- The stages that remain after `acquire`. -/
def AcqRet.stage : AcqRet T → ℕ
  | .first .. => 28
  | .root .. => 0
  | .more .. => 24

/-- The stages that remain after `take`. -/
def TakeRet.stage : TakeRet T → ℕ
  | .acquire ret _ _ => ret.stage
  | .flush => 10

/-- The number of blocks still to be acquired. -/
def TakeRet.need : TakeRet T → ℕ
  | .acquire _ _ remaining => remaining
  | .flush => 0

/-- How much of its call a lone thread has still to do. -/
@[simp]
noncomputable def rank (cfg : Config) (s : Shared T) : Pc T → Rank
  | .idle | .fault | .wRoot .. | .wRootStore .. => .mk 0 0 0 0
  -- write_from, up to the reservation
  | .wIndex _ => .mk 30 0 0 0
  | .wBlock _ _ => .mk 29 0 0 0
  | .wReIndex _ _ => .mk 27 0 0 0
  | .wReBlock _ _ _ => .mk 26 0 0 0
  | .wLoop _ _ _ _ => .mk 25 0 0 0
  | .wCas _ _ _ _ => .mk 23 0 0 0
  -- take, acquire and flush
  | .tLoad ret => .mk ret.stage ret.need 3 0
  | .tCas ret _ => .mk ret.stage ret.need 2 0
  | .tWalk ret _ rest => .mk ret.stage ret.need 1 (pathLen s.next rest)
  | .aAlloc ret _ remaining => .mk ret.stage remaining 0 0
  | .fDrop blocks _ => .mk 9 blocks.length 0 0
  -- advance_producer
  | .apFind _ _ curr _ => .mk 22 (pathLen s.next curr) 0 0
  | .apLink _ _ _ _ => .mk 21 0 0 0
  | .apWalk a => .mk 20 a.rem 0 0
  | .apHas _ => .mk 19 0 0 0
  | .apBlock _ _ => .mk 18 0 0 0
  | .apIndex _ _ => .mk 17 0 0 0
  -- the copy loop of write_from
  | .wSeg w => .mk 16 (w.src.length - w.moved) 4 0
  | .wNext w => .mk 16 (w.src.length - w.moved) 3 0
  | .wCopy w _ i => .mk 16 (w.src.length - w.moved) 2 (w.count cfg - i)
  | .wPublish w _ => .mk 16 (w.src.length - w.moved) 1 0
  | .wDrop w => .mk 15 w.blocks.length 0 0
  -- read_into, up to the claim
  | .rIndex _ => .mk 14 0 0 0
  | .rBlock _ _ => .mk 13 0 0 0
  | .rLoop _ _ _ => .mk 12 0 0 0
  | .rPidx _ _ _ => .mk 11 0 0 0
  | .rCas _ _ _ _ => .mk 10 0 0 0
  -- advance_consumer
  | .acLoad _ _ => .mk 9 0 0 0
  | .acLoop _ newIndex pidx _ => .mk 8 (2 * (pidx - newIndex / 2) + 1) 0 0
  | .acNext _ newIndex pidx _ => .mk 8 (2 * (pidx - newIndex / 2)) 0 0
  | .acBlock _ _ _ => .mk 7 0 0 0
  | .acIndex _ _ => .mk 6 0 0 0
  -- the copy loop of read_into
  | .rSeg r => .mk 5 (r.len - r.written) 20 0
  | .rProduced r => .mk 5 (r.len - r.written) 19 0
  | .rPending r _ => .mk 5 (r.len - r.written) 18 0
  | .rCopy r i => .mk 5 (r.len - r.written) 17 (r.count cfg - i)
  | .rNext r => .mk 5 (r.len - r.written) 16 0
  | .rConsume r _ => .mk 5 (r.len - r.written) 15 0
  | .rVblocks r _ => .mk 5 (r.len - r.written) 14 0
  | .cReset r _ _ => .mk 5 (r.len - r.written) 13 0
  | .cLoad r _ _ => .mk 5 (r.len - r.written) 12 0
  | .cLink r _ _ _ => .mk 5 (r.len - r.written) 11 0
  | .cPush r _ _ _ => .mk 5 (r.len - r.written) 10 0
  | .cFree r _ _ => .mk 5 (r.len - r.written) 9 0

/-- The step lowers the rank. -/
def Lower (cfg : Config) (s : Shared T) (pc : Pc T) (r : Shared T × Pc T) : Prop :=
  rank cfg r.1 r.2 < rank cfg s pc

/-! ## Steps of `write_from` and of the freelist -/

theorem resume_rank {ret : AcqRet T} (hret : AcqSolo s ret) (acc : List Addr) (b c d : ℕ) :
    rank cfg (resume s ret acc).1 (resume s ret acc).2 < .mk ret.stage b c d := by
  cases ret with
  | first src index block => simp [resume, rank, Rank.lt_iff, AcqRet.stage]
  | root src index blocks => exact hret.elim
  | more src index block blocks => simp [resume, rank, Rank.lt_iff, AcqRet.stage]

theorem acquire_rank (ret : AcqRet T) (hret : AcqSolo s ret) {n a : ℕ} (ha : ret.stage < a)
    (b c d : ℕ) : rank cfg (acquire s ret n).1 (acquire s ret n).2 < .mk a b c d := by
  unfold acquire
  split
  · refine (resume_rank hret [] 0 0 0).trans ?_
    rw [Rank.lt_iff]
    exact Or.inl ha
  · simp only [rank, TakeRet.stage, Rank.lt_iff]
    exact Or.inl ha

theorem took_rank {ret : TakeRet T} (hret : TakeSolo s ret) (cached : List Addr) {c : ℕ}
    (hc : 0 < c) (d : ℕ) :
    rank cfg (took s ret cached).1 (took s ret cached).2 < .mk ret.stage ret.need c d := by
  cases ret with
  | flush =>
    simp only [took, rank, TakeRet.stage, Rank.lt_iff]
    omega
  | acquire ret blocks remaining =>
    obtain ⟨heap', hs⟩ := addAssign_heap s blocks cached
    have hacq : AcqSolo (s.addAssign blocks cached).1 ret := by
      rw [hs]
      cases ret <;> exact hret
    simp only [took]
    split
    · exact resume_rank hacq _ _ _ _
    · simp only [rank, TakeRet.stage, TakeRet.need, Rank.lt_iff]
      omega

theorem reserved_rank (cfg : Config) (t : Tid) (s : Shared T) (src : List T) (index : ℕ)
    (block : Option Addr) (blocks : List Addr) (b c d : ℕ) :
    rank cfg (reserved cfg t s src index block blocks).1
      (reserved cfg t s src index block blocks).2 < .mk 23 b c d := by
  simp only [reserved]
  split <;> simp only [rank, Rank.lt_iff] <;> omega

/-- The lone thread's producer index is not a sentinel. -/
theorem Alone.producer_onSlot (h : Inv cfg s g) (hown : g.pown = none) :
    OnSlot cfg s.producerIndex := by
  have hstride := cfg.cap_lt_stride
  have hp := h.phead
  unfold ProdHead at hp
  rw [hown] at hp
  obtain ⟨off, f, hoff, hf, hidx, _⟩ := hp
  unfold OnSlot
  rwa [hidx, word_div_two cfg hf, Nat.mul_add_mod, Nat.mod_eq_of_lt (by omega)]

/-- The lone thread's consumer index is not a sentinel. -/
theorem Alone.consumer_onSlot (h : Inv cfg s g) (hown : g.cown = none) :
    OnSlot cfg s.consumerIndex := by
  have hstride := cfg.cap_lt_stride
  have hp := h.chead
  unfold ConsHead at hp
  rw [hown] at hp
  obtain ⟨off, f, hoff, hf, hidx, _⟩ := hp
  unfold OnSlot
  rwa [hidx, word_div_two cfg hf, Nat.mul_add_mod, Nat.mod_eq_of_lt (by omega)]

/-- The search for the last block ends: it walks a finite path. -/
theorem apFind_path (h : Inv cfg s g) {w : Write T} {token : ℕ} {curr : Option Addr}
    {blocks : List Addr} (hl : Local cfg t s g (.apFind w token curr blocks)) :
    ∃ l, LinkPath s.next curr l none := by
  obtain ⟨⟨_, hat, _, _, hsrc, _, howes, _⟩, j, hj, _, rfl⟩ := hl.here
  exact ⟨_, h.chain.path_from fun k a hk ha => live_from h hat hsrc howes (hj.trans hk) ha⟩

theorem filling_count {w : Write T} {next : Option Addr} {i : ℕ}
    (hf : Filling cfg t s g w next i) : 0 < w.count cfg := by
  obtain ⟨hlt, _, k, hat, _⟩ := hf
  have hoff := hat.2.2.2
  unfold Write.count
  omega

/-- `write_from`, `advance_producer`, `take`, `acquire` and `flush` go forward. -/
theorem write_lower (h : Inv cfg s g) (hl : Local cfg t s g pc) (ha : Alone t g)
    (hsolo : SoloAt cfg s pc) (hpc : pc.reading = false) :
    Post (fun r => r.2 ≠ .fault → r.2 = .idle ∨ Lower cfg s pc r) (step cfg t .run s pc) := by
  unfold Lower
  cases pc with
  | wIndex | wReIndex | wReBlock | apLink | apBlock | apIndex =>
    refine fun _ => Or.inr ?_
    simp only [rank, Rank.lt_iff]
    omega
  | wBlock src index =>
    exact fun _ => .inr (acquire_rank (.first src index s.producerBlock) hsolo
      (by simp [AcqRet.stage]) _ _ _)
  | wLoop src index block blocks =>
    obtain ⟨hset, rfl⟩ := hsolo
    have hslot := (onSlot_iff cfg _).mpr (Alone.producer_onSlot h (ha.pown_none hl rfl))
    simp only [step, hslot, Bool.false_eq_true, if_false]
    rw [if_neg (by simpa using hl.here.2.1.2.1)]
    refine fun _ => Or.inr ?_
    simp only [provision]
    split
    · exact acquire_rank (.more src s.producerIndex block blocks) ⟨hset, rfl⟩
        (by simp [AcqRet.stage]) _ _ _
    · simp only [rank, Rank.lt_iff]
      omega
  | wCas src index block blocks =>
    obtain ⟨_, rfl⟩ := hsolo
    simp only [step, if_true]
    exact fun _ => .inr (reserved_rank cfg t s src _ block blocks _ _ _)
  | wSeg w =>
    simp only [step]
    split_ifs <;> refine fun _ => Or.inr ?_ <;> simp only [rank, Rank.lt_iff] <;> omega
  | wNext | apHas =>
    refine deref_calm fun a _ => .inr ?_
    simp only [rank, Rank.lt_iff]
    omega
  | wCopy w next i =>
    simp only [step]
    split
    · split
      · trivial
      · refine deref_calm fun a _ => .inr ?_
        simp only [rank, Rank.lt_iff]
        omega
    · refine fun _ => Or.inr ?_
      simp only [rank, Rank.lt_iff]
      omega
  | wPublish w next =>
    have hcount := filling_count hl.here.2.2
    have hlt := hl.here.2.2.1
    refine deref_calm fun a _ => .inr ?_
    simp only [rank, Write.advance, Rank.lt_iff]
    omega
  | wDrop w =>
    cases hb : w.blocks with
    | nil =>
      simp only [step, hb]
      exact fun _ => .inl rfl
    | cons b rest =>
      simp only [step, hb]
      refine fun _ => Or.inr ?_
      simp only [rank, Rank.lt_iff, hb, List.length_cons]
      omega
  | apFind w token curr blocks =>
    obtain ⟨l, hpath⟩ := apFind_path h hl
    refine deref_calm fun a ha => .inr ?_
    subst ha
    have hdown := pathLen_next hpath
    split
    · simp only [rank, Rank.lt_iff]
      omega
    · rename_i n hn
      have hnext : s.next a = some n := hn
      rw [hnext] at hdown
      simp only [rank, Rank.lt_iff]
      omega
  | apWalk a =>
    have hoff := hl.here.1.2.2.2.2.2.2.2.2.2.2.1
    simp only [step]
    split
    · refine deref_calm fun b _ => .inr ?_
      simp only [rank, Rank.lt_iff]
      omega
    · refine fun _ => Or.inr ?_
      simp only [rank, Rank.lt_iff]
      omega
  | tLoad ret =>
    refine reload_post (fun a _ _ => .inr ?_) fun _ _ => .inr (took_rank hsolo.1 [] (by omega) 0)
    simp only [rank, Rank.lt_iff]
    omega
  | tCas ret head =>
    simp only [step, if_pos hsolo.2.2]
    refine fun _ => Or.inr ?_
    simp only [rank, Rank.lt_iff]
    omega
  | tWalk ret taken rest =>
    obtain ⟨hT, _⟩ := hsolo
    obtain ⟨_, rem, hrest, _, _, _, hlk, _⟩ := hl.here
    have hrem : LinkPath s.next rest rem none := by
      obtain ⟨m, _, hm⟩ := path_append.mp hlk
      rwa [hrest, ← path_head hm]
    have hsever : ∀ rest', (step.severed s ret taken rest').2 ≠ .fault →
        rank cfg (step.severed s ret taken rest').1 (step.severed s ret taken rest').2
          < rank cfg s (.tWalk ret taken rest) := by
      intro rest' hne
      unfold step.severed at hne ⊢
      split at hne
      · exact absurd rfl hne
      · refine took_rank ?_ taken (by omega) _
        cases ret with
        | flush => exact hT
        | acquire ret acc n => cases ret <;> exact hT
    cases rest with
    | none => exact fun hfault => .inr (hsever none hfault)
    | some a =>
      have hdown := pathLen_next hrem
      simp only [step]
      split
      · refine fun _ => Or.inr ?_
        simp only [rank, Rank.lt_iff]
        exact .inr ⟨le_refl _, .inr ⟨le_refl _, .inr ⟨le_refl _, hdown⟩⟩⟩
      · exact fun hfault => .inr (hsever (some a) hfault)
  | fDrop blocks freed =>
    cases blocks with
    | nil => exact fun _ => .inl rfl
    | cons b rest =>
      refine fun _ => Or.inr ?_
      simp only [rank, Rank.lt_iff, List.length_cons]
      omega
  | wRoot | wRootStore | fault => exact hsolo.elim
  | idle | aAlloc => trivial
  | _ => simp [Pc.reading] at hpc

/-! ## Steps of `read_into` -/

theorem claimed_rank (cfg : Config) (t : Tid) (s : Shared T) (cap index : ℕ)
    (block : Option Addr) (newIndex b c d : ℕ) :
    rank cfg (claimed cfg t s cap index block newIndex).1
      (claimed cfg t s cap index block newIndex).2 < .mk 10 b c d := by
  simp only [claimed]
  split <;> simp only [rank, Rank.lt_iff] <;> omega

/-- A lone consumer finds its segment published: the wait ends at once. -/
theorem pending_ready (h : Inv cfg s g) {produced : ℕ}
    (hl : Local cfg t s g (.rPending r produced)) (ha : Alone t g)
    (hsolo : SoloAt cfg s (.rPending r produced)) :
    s.producerIndex / 2 / cfg.ns = (cfg.nv + 1) * r.token + r.vblock ∧
      produced = s.producerIndex / 2 % cfg.ns ∧ r.offset + r.count cfg ≤ produced := by
  obtain ⟨_, hne, a, hblock, hprod⟩ := hsolo
  obtain ⟨hr, hlt, _⟩ := hl.here
  obtain ⟨hat, hholds⟩ := hr.segment hlt
  obtain ⟨hv, ho⟩ := hat.2.2
  have hcount := r.count_le cfg
  have hp := h.phead
  unfold ProdHead at hp
  rw [ha.pown_none hl rfl] at hp
  obtain ⟨off, f, hoff, hf, hidx, hppos, _⟩ := hp
  obtain ⟨a', hblock', hlive⟩ := live_of_cell h hat (i := 0) (by omega)
    (by rw [hholds 0 (by omega)]; simp)
  obtain rfl : a = a' := Option.some.inj (hblock.symm.trans hblock')
  -- the published slots of the virtual block are those below the producer's position
  have hpub : ∀ p, (g.L.prod p).isPublished = true ↔ p < g.L.ppos := by
    intro p
    rw [Ledger.PCell.isPublished_iff]
    constructor
    · rintro ⟨x, hx⟩
      exact h.ledger.reserved_lt (by rw [hx]; simp)
    · exact fun hlt => ha.published h hl rfl hlt
  have htally := (h.content a r.token hlive).produced r.vblock hv
  rw [← hprod] at htally
  have hstart : cfg.pos r.token r.vblock r.offset + r.count cfg ≤ g.L.ppos := by
    by_contra hc
    have hcell := hholds (r.count cfg - 1) (by omega)
    have hclaimed :=
      h.ledger.claimed_lt (p := cfg.pos r.token r.vblock r.offset + (r.count cfg - 1))
      (by rw [hcell]; simp)
    have := h.cpos_le
    omega
  have hbase := cons_pos_add cfg r.token r.vblock r.offset
  have hend : g.L.ppos < cfg.pos r.token r.vblock 0 + cfg.ns := by
    by_contra hc
    apply hne
    rw [htally, tally_eq_iff]
    exact fun p _ hp => (hpub p).mpr (by omega)
  obtain ⟨m, hm⟩ : ∃ m, g.L.ppos = cfg.pos r.token r.vblock 0 + m :=
    ⟨g.L.ppos - cfg.pos r.token r.vblock 0, by omega⟩
  have hmns : m < cfg.ns := by omega
  have hseg : r.offset + r.count cfg ≤ m := by omega
  have hmeq : produced = m := by
    rw [htally]
    exact tally_below (by omega) fun p _ _ => by rw [hpub p, hm]
  have hcap := cfg.offset_lt_cap hv hmns
  have hcappos := cfg.cap_pos
  rw [hppos] at hm
  unfold Config.pos at hm
  have htok : g.pk = r.token := by
    have h1 := token_of_lt cfg (j := g.pk) (k := r.token) (p := g.pk * cfg.cap + off)
      (by omega) (by omega)
    have h2 := token_of_lt cfg (j := r.token) (k := g.pk) (p := g.pk * cfg.cap + off)
      (by omega) (by omega)
    omega
  rw [htok] at hm hidx
  obtain rfl : off = r.vblock * cfg.ns + m := by omega
  have hstride := cfg.cap_lt_stride
  rw [hidx, word_div_two cfg hf, ridx_div_ns, ridx_mod_ns]
  have hdiv : (r.vblock * cfg.ns + m) / cfg.ns = r.vblock := by
    rw [Nat.mul_comm, Nat.mul_add_div cfg.ns_pos, Nat.div_eq_of_lt hmns]
    rfl
  refine ⟨by rw [hdiv], ?_, by omega⟩
  · rw [Nat.mul_comm r.vblock, Nat.mul_add_mod, Nat.mod_eq_of_lt hmns, hmeq]

/-- A lone consumer never waits for a producer to leave a boundary. -/
theorem acLoad_ready (h : Inv cfg s g) {newIndex : ℕ}
    (hl : Local cfg t s g (.acLoad r newIndex)) (ha : Alone t g) :
    ¬ (s.producerIndex / 2 / cfg.ns / (cfg.nv + 1) = r.token ∨
      isSentinel cfg (s.producerIndex / 2) = true) := by
  have hstride := cfg.cap_lt_stride
  have hp := h.phead
  unfold ProdHead at hp
  rw [ha.pown_none hl rfl] at hp
  obtain ⟨off, f, hoff, hf, hidx, hppos, _⟩ := hp
  have hcpos := (cpos_locked h (hl.holdsC.mpr rfl)).2
  have hck := hl.here.1.1
  have hle := h.cpos_le
  rw [hidx, word_div_two cfg hf, ridx_div cfg (by omega), isSentinel_iff cfg (by omega)]
  rintro (heq | hge)
  · rw [hcpos, hck, hppos, heq] at hle
    omega
  · omega

/-- The walk of `advance_consumer` goes forward. -/
theorem advanceLoop_rank {newIndex pidx : ℕ} {blk : Option Addr}
    (hscan : Scanning cfg s g r newIndex pidx blk) :
    rank cfg s (advanceLoop cfg r newIndex pidx blk)
      < rank cfg s (.acLoop r newIndex pidx blk) := by
  obtain ⟨n, o, pt, po, hidx, ho, hpidx, hpo, _, _, _, hn, _⟩ := hscan
  have hstride := cfg.cap_lt_stride
  have hcap := cfg.cap_pos
  unfold advanceLoop
  simp only [hidx, hpidx, ridx_div cfg (show o < cfg.stride by omega),
    ridx_div cfg (show po < cfg.stride by omega)]
  split
  · simp only [rank, Rank.lt_iff]
    omega
  · have hlt : cfg.stride * n + o < cfg.stride * pt + po :=
      ridx_lt_of_token_lt cfg (by omega) (by omega)
    split
    · simp only [rank, Rank.lt_iff, hidx]
      omega
    · split
      · simp only [rank, Rank.lt_iff]
        omega
      · simp only [rank, Rank.lt_iff, hidx]
        omega

theorem draining_count {i : ℕ} (hd : Draining cfg t s g r i) : 0 < r.count cfg := by
  obtain ⟨_, hlt, _, _, hat, _⟩ := hd
  have hoff := hat.2.2.2
  unfold Read.count
  omega

/-- The end of a segment leaves less to read. -/
theorem advance_rank (cfg : Config) (s : Shared T) {next : Option Addr}
    (hcount : 0 < r.count cfg) (c d : ℕ) :
    rank cfg s (.rSeg (r.advance cfg next)) < .mk 5 (r.len - r.written) c d := by
  have hle := r.count_le cfg
  simp only [rank, Read.advance, Rank.lt_iff]
  omega

/-- `read_into`, `advance_consumer` and `recycle` go forward. -/
theorem read_lower (h : Inv cfg s g) (hl : Local cfg t s g pc) (ha : Alone t g)
    (hsolo : SoloAt cfg s pc) (hpc : pc.reading = true) :
    Post (fun r => r.2 ≠ .fault → r.2 = .idle ∨ Lower cfg s pc r) (step cfg t .run s pc) := by
  unfold Lower
  cases pc with
  | rIndex | rBlock | acBlock | acIndex | cReset | cLoad =>
    refine fun _ => Or.inr ?_
    simp only [rank, Rank.lt_iff]
    omega
  | rLoop cap index block =>
    obtain ⟨_, rfl⟩ := hsolo
    have hslot : OnSlot cfg s.consumerIndex :=
      Alone.consumer_onSlot h (ha.cown_none hl rfl)
    unfold OnSlot at hslot
    have hnv : ¬ s.consumerIndex / 2 % cfg.stride / cfg.ns = cfg.nv := by
      rw [div_eq_nv_iff cfg (ridx_split cfg _).2]
      omega
    simp only [step, decodeIndex_split, if_neg hnv]
    split
    · refine fun _ => Or.inr ?_
      simp only [rank, Rank.lt_iff]
      omega
    · rw [if_neg (by simpa using hl.here.2.2.1)]
      refine fun _ => Or.inr ?_
      simp only [rank, Rank.lt_iff]
      omega
  | rPidx cap index block =>
    simp only [step]
    split
    · exact fun _ => .inl rfl
    · rw [if_neg (by simpa using hl.here.2.1.2.1)]
      refine fun _ => Or.inr ?_
      simp only [rank, Rank.lt_iff]
      omega
  | rCas cap index block newIndex =>
    obtain ⟨_, rfl, _⟩ := hsolo
    simp only [step, if_true]
    exact fun _ => .inr (claimed_rank cfg t s cap _ block newIndex _ _ _)
  | rSeg r =>
    simp only [step]
    split
    · refine fun _ => Or.inr ?_
      simp only [rank, Rank.lt_iff]
      omega
    · exact fun _ => .inl rfl
  | rProduced r =>
    refine deref_calm fun a _ => .inr ?_
    dsimp only
    split <;> simp only [rank, Rank.lt_iff] <;> omega
  | rPending r produced =>
    simp only [step, if_pos (pending_ready h hl ha hsolo)]
    refine fun _ => Or.inr ?_
    simp only [rank, Rank.lt_iff]
    omega
  | rCopy r i =>
    simp only [step]
    split
    · rename_i hi
      refine deref_post (fun _ hfault => absurd rfl hfault) fun a _ => ?_
      split
      · exact fun hfault => absurd rfl hfault
      · refine fun _ => .inr ?_
        unfold Read.count at hi
        simp only [rank, Rank.lt_iff, Read.count]
        omega
    · split <;> refine fun _ => Or.inr ?_ <;> simp only [rank, Rank.lt_iff] <;> omega
  | rNext r =>
    refine deref_calm fun a _ => .inr ?_
    simp only [rank, Rank.lt_iff]
    omega
  | rConsume r next =>
    refine deref_calm fun a _ => .inr ?_
    dsimp only
    split
    · simp only [rank, Rank.lt_iff]
      omega
    · exact advance_rank cfg _ (draining_count hl.here.1) _ _
  | rVblocks r next =>
    refine deref_calm fun a _ => .inr ?_
    dsimp only
    split
    · simp only [rank, Rank.lt_iff]
      omega
    · exact advance_rank cfg _ hsolo.1 _ _
  | acLoad r newIndex =>
    simp only [step, if_neg (acLoad_ready h hl ha)]
    refine fun _ => Or.inr ?_
    simp only [rank, Rank.lt_iff]
    omega
  | acLoop r newIndex pidx blk => exact fun _ => .inr (advanceLoop_rank hl.here.2)
  | acNext r newIndex pidx blk =>
    obtain ⟨_, ⟨n, o, pt, po, hidx, ho, hpidx, hpo, _, _, _, hn, _⟩, hsent⟩ := hl.here
    have hstride := cfg.cap_lt_stride
    have hcap := cfg.cap_pos
    rw [hidx, isSentinel_iff cfg (by omega)] at hsent
    have hns := cfg.ns_pos
    have hlt : cfg.stride * n + o < cfg.stride * pt + po :=
      ridx_lt_of_token_lt cfg (by omega) (by omega)
    refine deref_calm fun a _ => .inr ?_
    simp only [rank, Rank.lt_iff]
    omega
  | cLink r next b head =>
    cases head <;> refine fun _ => Or.inr ?_ <;> simp only [rank, Rank.lt_iff] <;> omega
  | cPush r next b head =>
    simp only [step, if_pos hsolo.2.2]
    exact fun _ => .inr (advance_rank cfg _ hsolo.1 _ _)
  | cFree r next b => exact fun _ => .inr (advance_rank cfg _ hsolo.1 _ _)
  | _ => simp [Pc.reading] at hpc

/-! ## Every call ends -/

/-- Neither a new call nor a spurious failure. -/
def Act.Calm : Act T → Prop
  | .run | .alloc _ => True
  | .call _ | .spurious => False

/-- **A calm step of a lone thread lowers the rank or ends the call.** -/
theorem solo_lower (h : Solo cfg t c g) (hcalm : act.Calm)
    {r : Shared T × Pc T} (hs : step cfg t act c.sh (c.pc t) = some r) (hfault : r.2 ≠ .fault) :
    r.2 = .idle ∨ Lower cfg c.sh (c.pc t) r := by
  obtain ⟨hI, hl, ha, hsolo⟩ := h
  generalize c.pc t = pc at hl hsolo hs ⊢
  revert hfault
  apply Post.of hs
  cases act with
  | call op => exact hcalm.elim
  | spurious => exact hcalm.elim
  | run =>
    cases hpc : pc.reading with
    | false => exact write_lower hI hl ha hsolo hpc
    | true => exact read_lower hI hl ha hsolo hpc
  | alloc a =>
    cases pc with
    | aAlloc ret acc n =>
      have hacq : AcqSolo ((c.sh.alloc a).modBlock a (·.setNext acc.head?)) ret := by
        cases ret <;> exact hsolo
      simp only [step]
      split
      · trivial
      split
      · exact fun _ => .inr (resume_rank hacq _ _ _ _)
      · refine fun _ => Or.inr ?_
        unfold Lower
        simp only [rank, TakeRet.stage, TakeRet.need, Rank.lt_iff]
        omega
    | _ => trivial

theorem deref_isSome (s : Shared T) (p : Option Addr) (k : Addr → Shared T × Pc T) :
    (deref s p k).isSome := by
  cases p <;> rfl

/-- Inside a call the thread can always go on; the allocator never runs dry. -/
theorem exists_calm (h : Inv cfg s g) (hl : Local cfg t s g pc)
    (hpc : pc ≠ .idle) : ∃ act : Act T, act.Calm ∧ (step cfg t act s pc).isSome := by
  cases pc with
  | idle => exact absurd rfl hpc
  | fault => exact hl.here.elim
  | aAlloc ret acc n =>
    obtain ⟨m, hm⟩ := h.bounded
    refine ⟨.alloc m, trivial, ?_⟩
    simp only [step, hm m (le_refl m), Bool.false_eq_true, if_false]
    split <;> rfl
  | wCopy w next i =>
    refine ⟨.run, trivial, ?_⟩
    simp only [step]
    split
    · have hcount := w.count_le cfg
      have hlt : w.moved + i < w.src.length := by omega
      rw [List.getElem?_eq_getElem hlt]
      exact deref_isSome s _ _
    · rfl
  | rCopy r i =>
    refine ⟨.run, trivial, ?_⟩
    simp only [step]
    split
    · exact deref_isSome s _ _
    · split <;> rfl
  | apWalk a =>
    refine ⟨.run, trivial, ?_⟩
    simp only [step]
    split
    · exact deref_isSome s _ _
    · rfl
  | wDrop w =>
    refine ⟨.run, trivial, ?_⟩
    simp only [step]
    split <;> rfl
  | fDrop blocks freed => cases blocks <;> exact ⟨.run, trivial, rfl⟩
  | tWalk ret taken rest =>
    refine ⟨.run, trivial, ?_⟩
    cases rest with
    | none => rfl
    | some a =>
      simp only [step]
      split <;> rfl
  | cLink r next b head => cases head <;> exact ⟨.run, trivial, rfl⟩
  | tLoad ret =>
    refine ⟨.run, trivial, ?_⟩
    simp only [step]
    split <;> rfl
  | tCas ret head =>
    refine ⟨.run, trivial, ?_⟩
    simp only [step]
    split
    · rfl
    · split <;> rfl
  | wNext | wPublish | apFind | apHas | rProduced | rNext | rConsume | rVblocks | acNext =>
    exact ⟨.run, trivial, deref_isSome s _ _⟩
  | wLoop | wRoot | wCas | wSeg | rLoop | rPidx | rCas | rSeg | rPending | acLoad | cPush =>
    refine ⟨.run, trivial, ?_⟩
    simp only [step]
    split_ifs <;> rfl
  | _ => exact ⟨.run, trivial, rfl⟩

open Interleave.System (Takes runs exists_runs_of_rank exists_not_calm)

theorem solo_takes {c c' : Conf T} (hc : (solo T cfg t).Reachable c)
    (h : Takes (step cfg) t act c c') : (solo T cfg t).Reachable c' := by
  obtain ⟨s', p', hs, rfl⟩ := h
  exact hc.step (t := t) ⟨s', p', ⟨⟨act, hs⟩, rfl⟩, rfl⟩

theorem takes_lower {c c' : Conf T} (hc : (solo T cfg t).Reachable c)
    (hcalm : act.Calm) (h : Takes (step cfg) t act c c') :
    c'.pc t = .idle ∨ rank cfg c'.sh (c'.pc t) < rank cfg c.sh (c.pc t) := by
  obtain ⟨g', hI', hl', _, _⟩ := solo_ok (solo_takes hc h)
  obtain ⟨g, hsolo⟩ := solo_ok hc
  obtain ⟨s', p', hs, rfl⟩ := h
  have hpc : (⟨s', update c.pc t p'⟩ : Conf T).pc t = p' := update_self _ _ _
  rw [hpc] at hl' ⊢
  refine solo_lower hsolo hcalm hs ?_
  rintro rfl
  exact hl'.here

theorem takes_next (hc : (solo T cfg t).Reachable c) (hpc : c.pc t ≠ .idle) :
    ∃ (act : Act T) (c' : Conf T), act.Calm ∧ Takes (step cfg) t act c c' := by
  obtain ⟨g, hI, hl, _, _⟩ := solo_ok hc
  obtain ⟨act, hcalm, hsome⟩ := exists_calm hI hl hpc
  obtain ⟨⟨s', p'⟩, hs⟩ := Option.isSome_iff_exists.mp hsome
  exact ⟨act, _, hcalm, s', p', hs, rfl⟩

/-- A return ends the call the program counter is inside of. -/
theorem Returns.op {op : Op T} {res : Res T}
    (h : Returns s act pc op res) : act.op pc = some op := by
  cases h <;> rfl

/-- Inside the call `op` that started with the trace `tr`, or right after it. -/
def During (t : Tid) (tr : List (Tid × Op T × Res T)) (op : Op T) (c : Conf T) : Prop :=
  (c.pc t ≠ .idle ∧ c.sh.trace = tr ∧ (c.pc t).op = some op) ∨
    (c.pc t = .idle ∧ ∃ res, c.sh.trace = tr ++ [(t, op, res)])

/-- A step taken in the call `op` stays in it or records its end. -/
theorem during_of_step {c c' : Conf T} {op : Op T} (hc' : (solo T cfg t).Reachable c')
    (hop : act.op (c.pc t) = some op) (h : Takes (step cfg) t act c c') :
    During t c.sh.trace op c' := by
  obtain ⟨g', _, hl', _, _⟩ := solo_ok hc'
  obtain ⟨s', p', hs, rfl⟩ := h
  have hpc : (⟨s', update c.pc t p'⟩ : Conf T).pc t = p' := update_self _ _ _
  unfold During
  rw [hpc] at hl' ⊢
  rcases step_quiet_or_returns hs with ⟨htrace, hidle, hin⟩ | ⟨op', res, hret, hr⟩
  · left
    refine ⟨hidle, htrace, ?_⟩
    rcases hin with hfault | hin
    · have hf : p' = .fault := hfault
      subst hf
      exact hl'.here.elim
    · exact hin.trans hop
  · right
    obtain ⟨rfl, rfl⟩ := Prod.mk.inj hr
    obtain rfl : op' = op := Option.some.inj (hret.op.symm.trans hop)
    exact ⟨rfl, res, rfl⟩

theorem during_takes {c c' : Conf T} {tr : List (Tid × Op T × Res T)} {op : Op T}
    (hc : (solo T cfg t).Reachable c) (hd : During t tr op c) (hpc : c.pc t ≠ .idle)
    (h : Takes (step cfg) t act c c') : During t tr op c' := by
  rcases hd with ⟨_, rfl, hop⟩ | ⟨hidle, _⟩
  · refine during_of_step (solo_takes hc h) ?_ h
    cases act with
    | call op' =>
      obtain ⟨_, _, hs, _⟩ := h
      exact absurd (call_idle hs) hpc
    | _ => exact hop
  · exact absurd hidle hpc

/-- **Every call of a lone thread can be run to its end.** -/
theorem call_completes (hc : (solo T cfg t).Reachable c) (hidle : c.pc t = .idle)
    (op : Op T) : ∃ (sched : List (Tid × Act T)) (c' : Conf T) (res : Res T),
      (∀ e ∈ sched, e.1 = t ∧ e.2.Calm) ∧ runs (step cfg) ((t, .call op) :: sched) c = some c' ∧
        (solo T cfg t).Reachable c' ∧ c'.pc t = .idle ∧
        c'.sh.trace = c.sh.trace ++ [(t, op, res)] := by
  obtain ⟨c₁, h₁⟩ : ∃ c₁, Takes (step cfg) t (.call op) c c₁ := by
    have hsome : (step cfg t (.call op) c.sh (c.pc t)).isSome := by
      rw [hidle]
      cases op with
      | writeFrom src => simp only [step]; split <;> rfl
      | readInto cap => simp only [step]; split <;> rfl
      | flushFreelist => rfl
    obtain ⟨⟨s', p'⟩, hs⟩ := Option.isSome_iff_exists.mp hsome
    exact ⟨_, s', p', hs, rfl⟩
  have hc₁ := solo_takes hc h₁
  have hd₁ : During t c.sh.trace op c₁ := during_of_step hc₁ rfl h₁
  obtain ⟨sched, c', hcalm, hrun, hend, hc', hd'⟩ := exists_runs_of_rank (t := t)
    (fun c' => (solo T cfg t).Reachable c' ∧ During t c.sh.trace op c')
    (fun c' => c'.pc t = .idle) Act.Calm (fun c' => rank cfg c'.sh (c'.pc t))
    (fun _ _ _ hg hpc htakes => ⟨solo_takes hg.1 htakes, during_takes hg.1 hg.2 hpc htakes⟩)
    (fun _ _ _ hg _ hcalm htakes => takes_lower hg.1 hcalm htakes)
    (fun _ hg hpc => takes_next hg.1 hpc) ⟨hc₁, hd₁⟩
  rcases hd' with ⟨hne, _⟩ | ⟨_, res, htrace⟩
  · exact absurd hend hne
  · exact ⟨sched, c', res, hcalm, h₁.runs hrun, hc', hend, htrace⟩

/-- **On one thread the queue is a list.**  In every configuration of a run in
which only `t` calls: no pointer was null; when `t` is between calls, the results
so far are those of the list operations; every further call can be run to its
end, and runs forever only if `compare_exchange_weak` fails spuriously again and
again. -/
theorem sequential {c : Conf T} (hc : (solo T cfg t).Reachable c) :
    c.pc t ≠ .fault ∧
    (c.pc t = .idle → Behaves c.sh.trace c.sh.contents) ∧
    (c.pc t = .idle → ∀ op, ∃ (sched : List (Tid × Act T)) (c' : Conf T) (res : Res T),
      (∀ e ∈ sched, e.1 = t ∧ e.2.Calm) ∧ runs (step cfg) ((t, .call op) :: sched) c = some c' ∧
        (solo T cfg t).Reachable c' ∧ c'.pc t = .idle ∧
        c'.sh.trace = c.sh.trace ++ [(t, op, res)]) ∧
    (∀ (x : ℕ → Conf T) (a : ℕ → Act T), x 0 = c →
      (∀ i, Takes (step cfg) t (a i) (x i) (x (i + 1))) → (∀ i, (x i).pc t ≠ .idle) →
      ∀ n, ∃ i, n ≤ i ∧ a i = .spurious) := by
  obtain ⟨g, hI, hl, _, hsolo⟩ := solo_ok hc
  refine ⟨fun hf => ?_, fun hidle => ?_, fun hidle op => call_completes hc hidle op,
    fun x a hx htakes hpc n => ?_⟩
  · rw [hf] at hl
    exact hl.here
  · rw [hidle] at hsolo
    exact hsolo.1
  · obtain ⟨i, hi, hcalm⟩ := exists_not_calm
      (solo T cfg t).Reachable (fun c' => c'.pc t = .idle) Act.Calm
      (fun c' => rank cfg c'.sh (c'.pc t)) (fun _ _ _ hg _ h => solo_takes hg h)
      (fun _ _ _ hg _ hcalm h => takes_lower hg hcalm h) htakes (hx ▸ hc) hpc n
    refine ⟨i, hi, ?_⟩
    cases ha : a i with
    | spurious => rfl
    | call op =>
      obtain ⟨_, _, hs, _⟩ := htakes i
      rw [ha] at hs
      exact absurd (call_idle hs) (hpc i)
    | _ =>
      rw [ha] at hcalm
      exact absurd trivial hcalm

/-- Two values in, one value out, on one thread. -/
theorem sequential_two_values : ∃ c : Conf ℕ, (solo ℕ twoSlots 0).Reachable c ∧
    c.pc 0 = .idle ∧ c.sh.trace = [(0, .writeFrom [7, 8], .left []), (0, .readInto 1, .out [7])] ∧
    Behaves c.sh.trace c.sh.contents := by
  obtain ⟨c, hexec, hidle, htrace⟩ : ∃ c, exec twoSlots (calls 0 (.writeFrom [7, 8]) 3 ++
      [(0, .alloc 1)] ++ List.replicate 17 (0, .run) ++ calls 0 (.readInto 1) 12) = some c ∧
      c.pc 0 = .idle ∧
      c.sh.trace = [(0, .writeFrom [7, 8], .left []), (0, .readInto 1, .out [7])] :=
    ⟨_, rfl, rfl, rfl⟩
  have hc : (solo ℕ twoSlots 0).Reachable c :=
    System.runs_restrict (by simp [calls]) .start hexec
  exact ⟨c, hc, hidle, htrace, (sequential hc).2.1 hidle⟩

end V8
