/-
# Every run keeps the proof outline

`step_ok` collects the step lemmas, one case for each program counter, and
`run_ok` is the rely-guarantee rule applied to it: in every configuration that
any schedule can reach there is a ghost value for which the shared invariant
and the assertions of all threads hold.
-/
import Ubq.V8.Consumer

namespace V8

open Interleave

variable {T : Type*} {cfg : Config} {t u : Tid} {s s' : Shared T} {g g' : Ghost T} {pc : Pc T}

/-- Program counters of `read_into` and of what it calls. -/
def Pc.reading : Pc T → Bool
  | .rIndex .. | .rBlock .. | .rLoop .. | .rPidx .. | .rCas .. | .rSeg .. | .rProduced ..
  | .rPending .. | .rCopy .. | .rNext .. | .rConsume .. | .rVblocks .. | .acLoad .. | .acLoop ..
  | .acNext .. | .acBlock .. | .acIndex .. | .cReset .. | .cLoad .. | .cLink .. | .cPush ..
  | .cFree .. => true
  | _ => false

/-- A `read_into` that moved nothing. -/
theorem done_empty (s : Shared T) (g : Ghost T) (t : Tid) (cap : ℕ) :
    Done s g t (.readInto cap) (.out []) :=
  ⟨[], 0, rfl, Nat.zero_le _, nofun⟩

theorem call_ok (h : Inv cfg s g) (hl : Local cfg t s g .idle) {op : Op T} :
    Post (StepOk cfg t s g) (step cfg t (.call op) s .idle) := by
  have hu := hl.unlocked rfl
  cases op with
  | writeFrom src =>
    simp only [step]
    split
    · rename_i hnil
      have hsrc : src = [] := by simpa using hnil
      subst hsrc
      exact ret_ok h hu (hl.keeps rfl) ⟨rfl, Or.inl rfl⟩
    · rename_i hne
      refine hl.stays h rfl ?_
      show src ≠ []
      simpa using hne
  | readInto cap =>
    simp only [step]
    split
    · exact ret_ok h hu (hl.keeps rfl) (done_empty s g t cap)
    · exact hl.stays h rfl (by show 0 < cap; omega)
  | flushFreelist => exact hl.stays h rfl trivial

/-- Re-reading the freelist head in `take`. -/
theorem reload_ok (h : Inv cfg s g) (hu : Unlocked t g) {ret : TakeRet T}
    (hT : TakeOk cfg t s g ret)
    (hk : Keeps t g ret.blocks) : Post (StepOk cfg t s g) (step cfg t .run s (.tLoad ret)) :=
  reload_post (fun _ _ => ⟨g, Ok.refl h, hu.toLocal rfl rfl rfl hk hT⟩) fun _ =>
    took_nil_ok h hu hT hk

/-- A dereference that cannot fault. -/
theorem deref_ok {p : Option Addr} {k : Addr → Shared T × Pc T}
    (hp : ∃ a, p = some a ∧ StepOk cfg t s g (k a)) : Post (StepOk cfg t s g) (deref s p k) := by
  obtain ⟨a, rfl, hk⟩ := hp
  exact hk

/-- The steps of `write_from`, `advance_producer` and the freelist. -/
theorem write_ok (h : Inv cfg s g) (hl : Local cfg t s g pc) 
    (hpc : pc.reading = false) : Post (StepOk cfg t s g) (step cfg t .run s pc) := by
  cases pc with
  | wIndex src => exact hl.stays h rfl ⟨hl.here, le_refl _⟩
  | wBlock src index =>
    exact acquire_ok h (hl.unlocked rfl) (hl.keeps rfl)
      ⟨hl.here.1, psnap_load h hl.here.2, ⟨List.nodup_nil, nofun⟩, rfl⟩
  | wLoop src index block blocks =>
    obtain ⟨hsrc, hsnap, ho, hlk⟩ := hl.here
    simp only [step]
    split
    · exact hl.stays h rfl ⟨hsrc, ho, hlk⟩
    · rename_i hslot
      rw [if_neg (by simpa using hsnap.2.1)]
      exact provision_ok h (hl.unlocked rfl) (hl.keeps rfl) hsrc hsnap
        ((onSlot_iff cfg index).mp (by simpa using hslot)) ho hlk
  | wReIndex src blocks => exact hl.stays h rfl ⟨hl.here.1, le_refl _, hl.here.2⟩
  | wReBlock src index blocks =>
    obtain ⟨hsrc, hi, ho, hlk⟩ := hl.here
    exact hl.stays h rfl ⟨hsrc, psnap_load h hi, ho, hlk⟩
  | wRoot src index new blocks => exact hl.here.elim
  | wRootStore src index new blocks => exact hl.here.elim
  | wCas src index block blocks =>
    obtain ⟨hsrc, hsnap, hslot, hroom, ho, hlk⟩ := hl.here
    simp only [step]
    split
    · rename_i heq
      exact reserved_ok h (hl.unlocked rfl) (hl.keeps rfl) hsrc hsnap hslot hroom ho hlk heq
    · exact hl.stays h rfl ⟨hsrc, le_refl _, ho, hlk⟩
  | wSeg w =>
    have hseg := wSeg_ok h hl
    simp only [step]
    rwa [← apply_ite, ← apply_ite]
  | wNext w => exact deref_ok (wNext_ok h hl)
  | wCopy w next i =>
    obtain ⟨ho, hlk, hfill⟩ := hl.here
    by_cases hi : i < w.count cfg
    · obtain ⟨v, a, hv, ha, hok⟩ := wCopy_ok h hl hi
      simp only [step, if_pos hi, hv]
      exact deref_ok ⟨a, ha, hok⟩
    · simp only [step, if_neg hi]
      have hcount : i = w.count cfg := by
        have := hfill.2.1
        omega
      subst hcount
      exact hl.stays h rfl ⟨ho, hlk, hfill⟩
  | wPublish w next => exact deref_ok (wPublish_ok h hl)
  | wDrop w =>
    cases hb : w.blocks with
    | nil =>
      simp only [step, hb]
      obtain ⟨_, hmoved, a, hresv, hsent⟩ := hl.here
      have hk : Keeps t g w.blocks := hl.keeps rfl
      refine ret_ok h (hl.unlocked rfl) (hb ▸ hk)
        ⟨?_, Or.inr ⟨a, lastResv_mem hresv, hsent⟩⟩
      rw [hmoved, List.drop_length]
    | cons b rest =>
      simp only [step, hb]
      exact wDrop_ok h hl hb
  | apFind w token curr blocks => exact deref_ok (apFind_ok h hl)
  | apLink w token curr blocks => exact apLink_ok h hl
  | apWalk a =>
    by_cases hfit : cfg.cap - a.off ≤ a.rem
    · simp only [step, if_pos hfit]
      exact deref_ok (apWalk_ok h hl hfit)
    · simp only [step, if_neg hfit]
      obtain ⟨hw, hdepth⟩ := hl.here
      refine hl.stays h rfl ⟨hw, ?_, by omega⟩
      by_contra hc
      omega
  | apHas a => exact deref_ok (apHas_ok h hl)
  | apBlock a hasNext => exact apBlock_ok h hl
  | apIndex a hasNext => exact apIndex_ok h hl
  | tLoad ret => exact reload_ok h (hl.unlocked rfl) hl.here (hl.keeps rfl)
  | tCas ret head =>
    by_cases hf : s.freelist = .ptr (some head)
    · simp only [step, if_pos hf]
      exact detach_ok h (hl.unlocked rfl) hl.here (hl.keeps rfl) hf
    · simp only [step, if_neg hf]
      exact reload_ok h (hl.unlocked rfl) hl.here (hl.keeps rfl)
  | tWalk ret taken rest =>
    obtain ⟨hT, rem, hrest, hne, _, _, _, hlim⟩ := hl.here
    cases rest with
    | none =>
      apply severed_ok h hl
      cases rem with
      | nil => simpa using hne
      | cons b rem => cases hrest
    | some a =>
      simp only [step]
      split
      · rename_i hmore
        exact walk_ok h hl hmore
      · rename_i hstop
        apply severed_ok h hl
        rintro rfl
        cases ret with
        | flush => exact hstop rfl
        | acquire ret acc n =>
          have := hT.1
          apply hstop
          simpa [TakeRet.limit] using this
  | fDrop blocks freed =>
    cases blocks with
    | nil => exact ret_ok h (hl.unlocked rfl) (hl.keeps rfl) trivial
    | cons b rest => exact flush_ok h (hl.unlocked rfl) (hl.keeps rfl) hl.here
  | idle => trivial
  | fault => exact hl.here.elim
  | aAlloc ret acc n => trivial
  | _ => simp [Pc.reading] at hpc

/-- The steps of `read_into`, `advance_consumer` and `FreeList::recycle`. -/
theorem read_ok (h : Inv cfg s g) (hl : Local cfg t s g pc) 
    (hpc : pc.reading = true) : Post (StepOk cfg t s g) (step cfg t .run s pc) := by
  cases pc with
  | rIndex cap => exact hl.stays h rfl ⟨hl.here, le_refl _⟩
  | rBlock cap index => exact hl.stays h rfl ⟨hl.here.1, csnap_load h hl.here.2⟩
  | rLoop cap index block =>
    obtain ⟨hcap, hsnap⟩ := hl.here
    have hnv : index / 2 % cfg.stride / cfg.ns = cfg.nv ↔ ¬ OnSlot cfg index := by
      rw [div_eq_nv_iff cfg (ridx_split cfg (index / 2)).2]
      unfold OnSlot
      omega
    simp only [step, decodeIndex_split]
    split
    · exact hl.stays h rfl hcap
    · rename_i hslot
      have hon : OnSlot cfg index := not_not.mp (fun hc => hslot (hnv.mpr hc))
      split
      · rename_i heven
        exact hl.stays h rfl ⟨hcap, hsnap, hon, heven⟩
      · rw [if_neg (by simpa using hsnap.2.1)]
        exact hl.stays h rfl ⟨hcap, hsnap, hon, newIndex_flag hcap hon (by omega)⟩
  | rPidx cap index block =>
    obtain ⟨hcap, hsnap, hon, heven⟩ := hl.here
    simp only [step, decodeIndex_split]
    split
    · exact ret_ok h (hl.unlocked rfl) (hl.keeps rfl) (done_empty s g t cap)
    · rename_i hne
      rw [if_neg (by simpa using hsnap.2.1)]
      exact hl.stays h rfl
        ⟨hcap, hsnap, hon, newIndex_clamp h hcap hon heven hsnap.1 hne⟩
  | rCas cap index block newIndex =>
    obtain ⟨hcap, hsnap, hon, hnew⟩ := hl.here
    simp only [step]
    split
    · rename_i heq
      exact claimed_ok h (hl.unlocked rfl) (hl.keeps rfl) hsnap hon hnew heq
    · exact hl.stays h rfl ⟨hcap, le_refl _⟩
  | rSeg r =>
    simp only [step]
    split
    · rename_i hlt
      exact hl.stays h rfl ⟨hl.here, hlt⟩
    · rename_i hdone
      obtain ⟨hout, hwl, hlc, _, b, htook, hcov, _⟩ := hl.here
      rw [Nat.sub_eq_zero_of_le (Nat.le_of_not_lt hdone)] at hcov
      exact ret_ok h ⟨hl.reader rfl rfl rfl rfl rfl, hcov.none⟩ (hl.keeps rfl)
        ⟨r.out, b, rfl, by omega, htook⟩
  | rProduced r => exact deref_ok (rProduced_ok h hl)
  | rPending r produced =>
    simp only [step]
    split
    · rename_i hgo
      exact rPending_ok h hl hgo.1 hgo.2.1 hgo.2.2
    · exact hl.stays h rfl ⟨hl.here.1, hl.here.2.1⟩
  | rCopy r i =>
    by_cases hi : i < r.count cfg
    · obtain ⟨a, x, ha, hx, hok⟩ := rCopy_ok h hl hi
      simp only [step, if_pos hi]
      refine deref_ok ⟨a, ha, ?_⟩
      simp only [hx]
      exact hok
    · simp only [step, if_neg hi]
      have hcount : i = r.count cfg := by
        have := hl.here.2.2.2.1
        omega
      subst hcount
      split
      · exact hl.stays h rfl hl.here
      · rename_i hv
        exact hl.stays h rfl ⟨hl.here, fun hc => absurd hc hv⟩
  | rNext r => exact deref_ok (rNext_ok h hl)
  | rConsume r next => exact deref_ok (rConsume_ok h hl)
  | rVblocks r next => exact deref_ok (rVblocks_ok h hl)
  | acLoad r newIndex =>
    simp only [step]
    split
    · exact hl.stays h rfl hl.here
    · rename_i hgo
      exact acLoad_ok h hl hgo
  | acLoop r newIndex pidx blk => exact acLoop_ok h hl
  | acNext r newIndex pidx blk => exact deref_ok (acNext_ok h hl)
  | acBlock r newIndex blk => exact acBlock_ok h hl
  | acIndex r newIndex => exact acIndex_ok h hl
  | cReset r next b => exact reset_ok h (hl.reader rfl rfl rfl rfl rfl) (hl.keeps rfl) hl.here.1
  | cLoad r next b => exact hl.stays h rfl hl.here
  | cLink r next b head =>
    cases head with
    | busy => exact hl.stays h rfl hl.here
    | ptr p => exact link_ok h (hl.reader rfl rfl rfl rfl rfl) (hl.keeps rfl) hl.here.1 hl.here.2
  | cPush r next b head =>
    obtain ⟨hr, hc, hnext⟩ := hl.here
    simp only [step]
    split
    · rename_i hf
      exact push_ok h (hl.reader rfl rfl rfl rfl rfl) (hl.keeps rfl) hr hc hnext hf
    · exact hl.stays h rfl ⟨hr, hc⟩
  | cFree r next b => exact free_ok h (hl.reader rfl rfl rfl rfl rfl) (hl.keeps rfl) hl.here.1
  | _ => simp [Pc.reading] at hpc

/-- **One step of any thread keeps the proof outline.** -/
theorem step_ok (h : Inv cfg s g) (hl : Local cfg t s g pc) {act : Act T}
    {r : Shared T × Pc T} (hs : step cfg t act s pc = some r) : StepOk cfg t s g r := by
  apply Post.of hs
  cases act with
  | call op =>
    cases pc with
    | idle => exact call_ok h hl
    | _ => cases op <;> trivial
  | run =>
    cases hpc : pc.reading with
    | false => exact write_ok h hl hpc
    | true => exact read_ok h hl hpc
  | spurious =>
    cases pc with
    | wCas src index block blocks =>
      obtain ⟨hsrc, _, _, _, ho, hlk⟩ := hl.here
      exact hl.stays h rfl ⟨hsrc, le_refl _, ho, hlk⟩
    | tCas ret head => exact reload_ok h (hl.unlocked rfl) hl.here (hl.keeps rfl)
    | rCas cap index block newIndex => exact hl.stays h rfl ⟨hl.here.1, le_refl _⟩
    | cPush r next b head => exact hl.stays h rfl ⟨hl.here.1, hl.here.2.1⟩
    | _ => trivial
  | alloc a =>
    cases pc with
    | aAlloc ret acc n =>
      obtain ⟨hn, hacq⟩ := hl.here
      cases hfree : s.allocated a with
      | true =>
        simp only [step, hfree]
        trivial
      | false =>
        have hok := alloc_ok h (hl.unlocked rfl) hn (hl.keeps rfl) hacq hfree
        simp only [step, hfree, Bool.false_eq_true, if_false, ← apply_ite]
        exact hok
    | _ => trivial

/-! ## Initially and along every run -/

/-- The ghost value of the new queue: block `0` is linked, nothing is reserved. -/
def Ghost.new : Ghost T where
  L := Ledger.empty
  owner := fun a => if a = 0 then .chain 0 else .free
  vstat := fun _ _ => .opened
  pk := 0
  ck := 0
  pown := none
  cown := none
  fown := none
  cache := []

theorem inv_new : Inv cfg (Shared.new : Shared T) Ghost.new := by
  have hcap := cfg.cap_pos
  have howner : ∀ a k, (Ghost.new : Ghost T).owner a = .chain k → a = 0 ∧ k = 0 := by
    intro a k ha
    unfold Ghost.new at ha
    simp only at ha
    split at ha
    · rename_i h0
      injection ha with hk
      exact ⟨h0, hk.symm⟩
    · cases ha
  refine {
    ledger := Ledger.empty_wf
    cpos_le := le_refl _
    chain := ⟨fun a k ha => ?_, fun a k ha j hj => ?_, fun a k ha => ?_⟩
    live := fun k a ha => ?_
    freed := fun a ha => ?_
    used := fun a ha => ?_
    bounded := ⟨1, fun a ha => beq_eq_false_iff_ne.mpr (Nat.ne_of_gt ha)⟩
    content := fun a k ha => ?_
    finished := fun k v o _ _ hne => absurd rfl hne
    unfinished := fun k v _ _ => ⟨0, cfg.ns_pos, by simp [Ghost.new, Ledger.empty]⟩
    unretired := fun a k _ => ⟨0, cfg.nv_pos, by simp [Ghost.new]⟩
    cache_path := fun p hp => ?_
    cache_nodup := List.nodup_nil
    cache_mem := fun a => ?_
    cache_clean := fun a ha => absurd ha (by simp [Ghost.new])
    busy_iff := by simp [Shared.new, Ghost.new]
    busy_cache := fun _ => rfl
    pk_lt := by simp [Shared.new, Ghost.new]
    pblock := by simp [Shared.new]
    phead := ⟨0, 0, hcap, by omega, by simp [Config.word, Shared.new, Ghost.new],
      by simp [Ghost.new, Ledger.empty], rfl, fun hc => absurd hc (by omega)⟩
    ck_le := le_refl _
    cpos_pk := Nat.zero_le _
    cblock := ⟨0, le_refl _, by simp [Shared.new], rfl⟩
    chead := ⟨0, 0, hcap, by omega, by simp [Config.word, Shared.new, Ghost.new],
      by simp [Ghost.new, Ledger.empty], rfl, fun hc => absurd hc (by omega)⟩
    hist := ?_ }
  · obtain ⟨rfl, rfl⟩ := howner a k ha
    rfl
  · obtain ⟨rfl, rfl⟩ := howner a k ha
    have hnone : ([0] : List Addr)[j]? = none :=
      List.getElem?_eq_none (by rw [List.length_singleton]; omega)
    show ([0] : List Addr)[j]? ≠ some 0
    rw [hnone]
    simp
  · obtain ⟨rfl, rfl⟩ := howner a k ha
    rfl
  · left
    have hk : k = 0 := by
      have := (List.getElem?_eq_some_iff.mp ha).1
      simp [Shared.new] at this
      exact this
    subst hk
    have ha0 : a = 0 := by simpa [Shared.new] using ha.symm
    subst ha0
    rfl
  · have ha0 : a ≠ 0 := by simpa [Shared.new] using ha
    simp [Ghost.new, ha0]
  · have ha0 : a = 0 := by simpa [Shared.new] using ha
    simp [Ghost.new, ha0]
  · exact Content.of_clean ⟨rfl, fun _ => rfl⟩
      (fun p x _ hx => by rcases hx with hx | ⟨_, hx⟩ <;> simp [Ghost.new, Ledger.empty] at hx)
      (fun p _ => rfl) (fun v _ => rfl)
  · have hp' : none = p := by simpa [Shared.new] using hp
    exact hp'.symm
  · simp only [Ghost.new]
    split <;> simp
  · have hnil : ∀ p, (Ghost.new : Ghost T).L.prod p = .free := fun _ => rfl
    refine {
      log := Log.empty_agrees
      resv_cover := fun p x hx => absurd hx (by simp [hnil])
      claim_owner := fun p u hp => absurd hp (by simp [Ghost.new, Ledger.empty])
      copied_val := fun e he => absurd he (by simp [Shared.new])
      copied_mem := fun p x hx => ?_
      deliv_claim := fun e he => absurd he (by simp [Shared.new])
      recyc_nodup := List.nodup_nil
      recyc_iff := fun k => ?_
      trace_write := fun e he => absurd he (by simp [Shared.new])
      trace_read := fun e he => absurd he (by simp [Shared.new]) }
    · rcases hx with hx | ⟨_, hx⟩ <;> simp [hnil] at hx
    · constructor
      · intro hk
        simp [Shared.new] at hk
      · intro hall
        exact absurd (hall 0 cfg.nv_pos) (by simp [Ghost.new])

/-- **The proof outline holds in every reachable configuration.** -/
theorem run_ok {c : Conf Tid (Shared T) (Pc T)} (hc : (system T cfg).Reachable c) :
    ∃ g, Inv cfg c.sh g ∧ ∀ t, Local cfg t c.sh g (c.pc t) := by
  apply System.rely_guarantee (system T cfg) (Inv cfg) (Local cfg) Rely
  · refine ⟨Ghost.new, inv_new, fun t => ?_⟩
    refine Unlocked.toLocal ⟨⟨by simp [Ghost.new], by simp [Ghost.new], by simp [Ghost.new],
      fun p v hp => ?_, by simp [Ghost.new]⟩, fun p hp => ?_⟩ rfl rfl rfl (fun a ha => ?_) trivial
    · rcases hp with hp | hp <;> exact absurd hp (by simp [Ghost.new, Ledger.empty])
    · rcases hp with hp | hp <;> exact absurd hp (by simp [Ghost.new, Ledger.empty])
    · simp only [Ghost.new] at ha
      split at ha <;> exact absurd ha (by simp)
  · intro t s g p s' p' hI hL hstep
    obtain ⟨act, hs⟩ := hstep
    obtain ⟨g', hok, hl⟩ := step_ok hI hL hs
    exact ⟨g', hok.inv, hl, hok.rely⟩
  · intro u s g s' g' p hI _ hR hL
    exact local_stable hI hR hL
  · exact hc

end V8
