/-
# Every run keeps the proof outline

`step_ok` collects the step lemmas, one case for each program counter, and
`run_ok` is the rely-guarantee rule applied to it: in every configuration that
a schedule without stale claims can reach there is a ghost value for which the
shared invariant and the assertions of all threads hold.
-/
import Ubq.Mpmc.Consumer

namespace Mpmc

open Interleave

variable {T : Type*} {cfg : Config} {t u : Tid} {s s' : Shared T} {g g' : Ghost T} {pc : Pc T}

/-- Program counters of `pop_batch` and its iterator. -/
def Pc.popping : Pc T → Bool
  | .cLoad0 .. | .cReload .. | .cPhead .. | .cCas .. | .cPost .. | .cRevert .. | .cWalk ..
  | .cNext .. | .cSpin .. | .cNext2 .. | .cStoreP .. | .cStoreN .. | .iRead .. | .iNext ..
  | .iConsume .. | .iReset .. | .iPool .. | .iFree .. => true
  | _ => false

theorem call_ok (h : Inv cfg s g) (hl : Local cfg t s g .idle) (op : Op T) :
    Post (StepOk cfg t s g) (step cfg t (.call op) s .idle) := by
  have hu := hl.unlocked rfl rfl rfl rfl rfl
  cases op with
  | pushBatch items =>
    simp only [step, stepWith]
    split
    · rename_i hnil
      obtain rfl : items = [] := by simpa using hnil
      exact ret_ok h hu hl.keeps ⟨rfl, Or.inl rfl⟩
    · rename_i hne
      exact ⟨g, Ok.refl h, hu.toLocal rfl rfl rfl hl.keeps
        ⟨⟨⟨items, rfl, rfl, by simpa using hne⟩, owned_nil, linked_nil⟩, rfl⟩⟩
  | popBatch size keep =>
    simp only [step, stepWith]
    split
    · exact ret_ok h hu hl.keeps (done_empty s g t size keep)
    · rename_i hne
      exact ⟨g, Ok.refl h, hu.toLocal rfl rfl rfl hl.keeps (Nat.pos_of_ne_zero hne)⟩
  | isEmpty => exact ⟨g, Ok.refl h, hu.toLocal rfl rfl rfl hl.keeps trivial⟩

/-- A dereference that cannot fault. -/
theorem deref_ok {p : Option Addr} {k : Addr → Shared T × Pc T}
    (hp : ∃ a, p = some a ∧ StepOk cfg t s g (k a)) : Post (StepOk cfg t s g) (deref s p k) :=
  deref_found hp fun _ _ hk => hk

theorem some_ite {α : Type*} (c : Prop) [Decidable c] (x y : α) :
    (if c then some x else some y) = some (if c then x else y) :=
  (apply_ite some c x y).symm

/-- The steps of `push_batch` and `is_empty`. -/
theorem push_ok (h : Inv cfg s g) (hl : Local cfg t s g pc) (hpc : pc.popping = false) :
    Post (StepOk cfg t s g) (step cfg t .run s pc) := by
  cases pc with
  | pLoad p =>
    have hok := pLoad_ok h hl
    simp only [step, stepWith, some_ite]
    exact hok
  | pInitSwap p =>
    obtain ⟨hp, hb⟩ := hl.here
    cases hpool : s.pool with
    | none =>
      simp only [step, stepWith, hpool]
      exact ⟨g, Ok.refl h,
        (hl.unlocked rfl rfl rfl rfl rfl).toLocal rfl rfl rfl hl.keeps ⟨hp, hb⟩⟩
    | some a =>
      simp only [step, stepWith, hpool]
      exact pInitSwap_ok h hl hpool
  | pInitCas p root =>
    have hok := pInitCas_ok h hl
    simp only [step, stepWith, some_ite]
    exact hok
  | pInitStore p root => exact pInitStore_ok h hl
  | pReload p =>
    exact pushLoop_ok h (hl.unlocked rfl rfl rfl rfl rfl) hl.here.1 hl.keeps hl.here.2 _
  | pSwap p phead need =>
    obtain ⟨hp, hst, hi, hneed⟩ := hl.here
    cases hpool : s.pool with
    | none =>
      simp only [step, stepWith, hpool]
      subst hneed
      exact grown_ok h (hl.unlocked rfl rfl rfl rfl rfl) hp hl.keeps hst hi
    | some a =>
      obtain ⟨s', hgive, hok⟩ := pSwap_ok h hl hpool
      simp only [step, stepWith, hpool, hgive]
      exact hok
  | pCas p phead =>
    obtain ⟨hp, hst, _⟩ := hl.here
    simp only [step, stepWith]
    split
    · rename_i heq
      exact reserved_ok h hl heq
    · exact pushLoop_ok h (hl.unlocked rfl rfl rfl rfl rfl) hp hl.keeps hst _
  | pNext w => exact deref_ok (pNext_ok h hl)
  | pLink w => exact deref_ok (pLink_ok h hl)
  | pStore w next => exact pStore_ok h hl
  | pWait f =>
    obtain ⟨b, n, hb, hn, hok⟩ := pWait_ok h hl
    refine deref_ok ⟨b, hb, ?_⟩
    simp only [hn]
    exact hok
  | pWrite f next => exact deref_ok (pWrite_ok h hl)
  | pDrop p =>
    cases hb : p.blocks with
    | nil =>
      simp only [step, stepWith, hb]
      exact pDrop_ok h hl hb
    | cons b rest =>
      simp only [step, stepWith, hb]
      exact pDrop_free_ok h hl hb
  | eLoad =>
    have hu := hl.unlocked rfl rfl rfl rfl rfl
    simp only [step, stepWith]
    split
    · exact ret_ok h hu hl.keeps ⟨_, rfl⟩
    · rename_i hz
      exact ⟨g, Ok.refl h,
        hu.toLocal rfl rfl rfl hl.keeps fun hc => hz ((phead_zero_iff h).mpr hc)⟩
  | eSpin phead =>
    have hu := hl.unlocked rfl rfl rfl rfl rfl
    simp only [step, stepWith]
    split
    · exact ⟨g, Ok.refl h, hu.toLocal rfl rfl rfl hl.keeps hl.here⟩
    · exact ret_ok h hu hl.keeps ⟨_, rfl⟩
  | fault => exact hl.here.elim
  | idle | pInitAlloc | pAlloc => trivial
  | _ => simp [Pc.popping] at hpc

/-- The steps of `pop_batch` and its iterator. -/
theorem pop_ok (h : Inv cfg s g) (hl : Local cfg t s g pc) (haba : AbaFree t s pc)
    (hpc : pc.popping = true) : Post (StepOk cfg t s g) (step cfg t .run s pc) := by
  cases pc with
  | cLoad0 size keep =>
    have hok := cLoad0_ok h hl
    simp only [step, stepWith, some_ite]
    exact hok
  | cReload q => exact cReload_ok h (hl.unlocked rfl rfl rfl rfl rfl) hl.keeps hl.here.1 hl.here.2
  | cPhead q chead =>
    have hok := cPhead_ok h hl
    simp only [step, stepWith, some_ite]
    exact hok
  | cCas q chead new =>
    simp only [step, stepWith]
    split
    · rename_i heq
      have hok := cCas_ok h hl haba heq
      simp only [some_ite]
      exact hok
    · exact cReload_ok h (hl.unlocked rfl rfl rfl rfl rfl) hl.keeps hl.here.1 hl.here.2.1.ready
  | cPost q chead new =>
    obtain ⟨hnot, hok⟩ := cPost_ok h hl
    simp only [step, stepWith, if_neg hnot]
    exact hok
  | cRevert q chead new phead => exact hl.here.elim
  | cWalk q chead => exact cWalk_ok h hl
  | cNext w => exact deref_ok (cNext_ok h hl)
  | cSpin w => exact cSpin_ok h hl
  | cNext2 w => exact deref_ok (cNext2_ok h hl)
  | cStoreP w => exact cStoreP_ok h hl
  | cStoreN w => exact cStoreN_ok h hl
  | iRead it =>
    obtain ⟨k, hr⟩ := hl.here
    obtain ⟨a, hblock, hget, hlive⟩ := reading_block h hr
    refine deref_ok ⟨a, hblock, ?_⟩
    rcases slot_cases h hlive hr.here.2.2 with hz | ⟨v, hv, hstate, hvalue⟩
    · simp only [hz]
      exact ⟨g, Ok.refl h,
        (hl.reader rfl rfl rfl rfl).toLocal rfl rfl rfl rfl hl.keeps ⟨k, hr⟩⟩
    · simp only [hstate, hvalue, h.chain.tokenOf hlive]
      have hok := iRead_take_ok h (hl.reader rfl rfl rfl rfl) hl.keeps hr hblock hget hlive hv
      simpa only [hstate, hvalue] using hok
  | iNext it => exact deref_ok (iNext_ok h hl)
  | iConsume it a =>
    have hok := iConsume_ok h hl
    simp only [step, stepWith, some_ite]
    exact hok
  | iReset it a => exact iReset_ok h hl
  | iPool it a =>
    have hok := iPool_ok h hl
    simp only [step, stepWith, some_ite]
    exact hok
  | iFree it a => exact iFree_ok h hl
  | _ => simp [Pc.popping] at hpc

/-- A slot that is read and neither empty nor skipped has a value. -/
theorem Local.has_value (h : Inv cfg s g) {it : Iter T} (hl : Local cfg t s g (.iRead it))
    {a : Addr}
    (ha : it.block = some a) (hst : ((s.heap a).slots it.index).state = .written) :
    ((s.heap a).slots it.index).value ≠ none := by
  obtain ⟨k, hr⟩ := hl.here
  obtain ⟨b, hb, _, hlive⟩ := reading_block h hr
  obtain rfl : a = b := Option.some.inj (ha.symm.trans hb)
  rcases slot_cases h hlive hr.here.2.2 with hz | ⟨v, _, _, hval⟩
  · simp [hz] at hst
  · simp [hval]

theorem iRead_found (h : Inv cfg s g) {it : Iter T} (hl : Local cfg t s g (.iRead it)) :
    ∃ a, it.block = some a ∧ True := by
  obtain ⟨k, hr⟩ := hl.here
  obtain ⟨a, ha, _⟩ := reading_block h hr
  exact ⟨a, ha, trivial⟩

theorem pWait_found (h : Inv cfg s g) {f : Fill T} (hl : Local cfg t s g (.pWait f)) :
    ∃ a, f.block = some a ∧ ∃ n, (s.heap a).next = some n := by
  obtain ⟨a, n, ha, hn, _⟩ := pWait_ok h hl
  exact ⟨a, ha, n, hn⟩

/-- **One step of any thread keeps the proof outline**, unless it wins a CAS on
`chead` with a stale snapshot. -/
theorem step_ok (h : Inv cfg s g) (hl : Local cfg t s g pc) (haba : AbaFree t s pc)
    {act : Act T} {r : Shared T × Pc T} (hs : step cfg t act s pc = some r) :
    StepOk cfg t s g r := by
  apply Post.of hs
  apply step_cases
  case call =>
    rintro op - rfl
    exact call_ok h hl op
  case run =>
    rintro -
    cases hpc : pc.popping with
    | false => exact push_ok h hl hpc
    | true => exact pop_ok h hl haba hpc
  case pCas =>
    rintro p phead - rfl
    exact pushLoop_ok h (hl.unlocked rfl rfl rfl rfl rfl) hl.here.1 hl.keeps hl.here.2.1 _
  case cCas =>
    rintro q chead new - rfl
    exact cReload_ok h (hl.unlocked rfl rfl rfl rfl rfl) hl.keeps hl.here.1 hl.here.2.1.ready
  case pInitAlloc =>
    rintro p a - rfl hfree
    exact pInitAlloc_ok h hl hfree
  case pAlloc =>
    rintro as p phead need - rfl hlen hnodup hfree
    obtain ⟨s', hgive, hok⟩ := pAlloc_ok h hl hlen hnodup hfree
    rwa [hgive]

/-! ## Initially and along every run -/

/-- The ghost value of the new queue. -/
def Ghost.new : Ghost T where
  L := Ledger.empty
  owner := fun _ => .free
  stage := .fresh
  pk := 0
  ck := 0
  pown := none
  cown := none

theorem inv_new : Inv cfg (Shared.new : Shared T) Ghost.new where
  ledger := Ledger.empty_wf
  present := fun p => by simp [Ghost.new, Ledger.empty]
  cpos_le := le_refl _
  chain := ⟨fun a k hc => absurd hc (by simp [Ghost.new]),
    fun a k hc => absurd hc (by simp [Ghost.new]), fun a k hc => absurd hc (by simp [Ghost.new])⟩
  live := fun k a ha => absurd ha (by simp [Shared.new])
  pages := by
    refine ⟨fun a _ => rfl, fun a r hc => absurd rfl hc, fun r hr => ?_, fun r hr => ?_,
      fun a _ hc => absurd hc (by simp [Shared.new]), ⟨0, fun a _ => rfl⟩, fun a => rfl,
      List.nodup_nil, fun r => ?_⟩
    · exact absurd hr (Nat.not_lt_zero _)
    · exact absurd hr (Nat.not_lt_zero _)
    · simp [Shared.new]
  dropped := rfl
  content := fun a k hc => absurd hc (by simp [Ghost.new])
  unfinished := fun a k hc => absurd hc (by simp [Ghost.new])
  pool_iff := fun a => by simp [Ghost.new, Shared.new]
  pool_clean := fun a ha => absurd ha (by simp [Shared.new])
  fresh_iff := by simp [Ghost.new, Shared.new]
  fresh := fun _ => ⟨rfl, rfl, rfl⟩
  pk_lt := fun hc => absurd rfl hc
  phead := ⟨0, false, cfg.bl_pos, rfl, (Nat.zero_mul _).symm, nofun⟩
  ck_le := le_refl _
  cpos_pk := Nat.zero_le _
  chead := ⟨rfl, rfl, rfl, rfl⟩
  log := Log.empty_agrees
  trace := fun e he => absurd he (by simp [Shared.new])

theorem local_new (t : Tid) : Local cfg t (Shared.new : Shared T) Ghost.new .idle := by
  refine ⟨?_, ?_, ?_, fun _ p v hp => ?_, fun _ p hp => ?_, fun a ha => ?_, trivial⟩
  · simp [Ghost.new, Pc.holdsI]
  · simp [Ghost.new, Pc.holdsP]
  · simp [Ghost.new, Pc.holdsC]
  · simp [Ghost.new, Ledger.empty] at hp
  · simp [Ghost.new, Ledger.empty] at hp
  · simp [Ghost.new] at ha

/-- The configurations of the system. -/
abbrev Conf (T : Type*) := Interleave.Conf Tid (Shared T) (Pc T)

/-- The runs in which no consumer wins its CAS with a stale snapshot. -/
def calm (T : Type*) (cfg : Config) : System Tid (Shared T) (Pc T) :=
  (system T cfg).restrict fun t s pc _ _ => AbaFree t s pc

/-- A configuration and a ghost value that fit together. -/
def Good (cfg : Config) (c : Conf T) (g : Ghost T) : Prop :=
  Inv cfg c.sh g ∧ ∀ t, Local cfg t c.sh g (c.pc t)

/-- **Every run without stale claims keeps the proof outline.** -/
theorem run_ok {c : Conf T} (hc : (calm T cfg).Reachable c) : ∃ g, Good cfg c g := by
  refine System.rely_guarantee (calm T cfg) (Inv cfg) (Local cfg) Rely
    ⟨Ghost.new, inv_new, local_new⟩ (fun t s g p s' p' hI hL hs => ?_)
    (fun u s g s' g' p hI _ hR hL => local_stable hI hR hL) hc
  obtain ⟨⟨act, hact⟩, haba⟩ := hs
  obtain ⟨g', hok, hl⟩ := step_ok hI hL haba hact
  exact ⟨g', hok.inv, hl, hok.rely⟩

end Mpmc
