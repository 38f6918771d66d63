/-
# Pages that are returned together

A chain of several blocks is one allocation, and its pages go back to the
allocator with the last of them.  `Pages` is kept by allocating a chain and by
freeing a block, so an address the allocator hands out is owned by nobody.
-/
import Ubq.Mpmc.Stable

namespace Mpmc

open Function

variable {T : Type*} {s s' : Shared T} {m m' : Arena} {run run' : Addr → Option ℕ}
  {owner owner' : Addr → Own Tid}
variable {a : Addr} {t : Tid} {as l : List Addr}

@[simp] theorem inUse_iff {x : Own Tid} : Own.inUse x = true ↔ x ≠ .free := by
  cases x <;> simp [Own.inUse]

@[simp] theorem inUse_eq_false {x : Own Tid} : Own.inUse x = false ↔ x = .free := by
  cases x <;> simp [Own.inUse]

/-- `Pages` looks at the owners only through their being free. -/
theorem Pages.congr (h : Pages m run owner) (ho : ∀ a, owner' a = .free ↔ owner a = .free) :
    Pages m run owner' := by
  have huse : ∀ a, Own.inUse (owner' a) = Own.inUse (owner a) := by
    intro a
    rw [Bool.eq_iff_iff, inUse_iff, inUse_iff]
    exact not_congr (ho a)
  exact { h with
    freed := fun a hfree => (ho a).mpr (h.freed a hfree)
    member := fun a r hne hr => h.member a r (fun hc => hne ((ho a).mpr hc)) hr
    remaining := fun r hlt => by
      rw [h.remaining r hlt]
      apply List.countP_congr
      intro b _
      rw [huse b]
    single := fun a hfree => h.single a ((ho a).mp hfree)
    count := fun a => by
      rw [h.count a, huse a] }

/-- One page fewer of a run is in use. -/
theorem countP_release {p q : Addr → Bool} (hnd : l.Nodup)
    (ha : a ∈ l) (hp : p a = true) (hq : q a = false) (hpq : ∀ b ∈ l, b ≠ a → q b = p b) :
    l.countP p = l.countP q + 1 := by
  have hperm := List.perm_cons_erase ha
  rw [hperm.countP_eq p, hperm.countP_eq q, List.countP_cons_of_pos hp,
    List.countP_cons_of_neg (by simp [hq])]
  congr 1
  apply List.countP_congr
  intro b hb
  obtain ⟨hne, hmem⟩ := hnd.mem_erase_iff.mp hb
  rw [hpq b hmem hne]

theorem exists_bound (l : List Addr) : ∃ n : ℕ, ∀ a ∈ l, a < n := by
  induction l with
  | nil => exact ⟨0, nofun⟩
  | cons b l ih =>
    obtain ⟨n, hn⟩ := ih
    refine ⟨max n (b + 1), fun a ha => ?_⟩
    rcases List.mem_cons.mp ha with rfl | ha
    · exact lt_max_of_lt_right (Nat.lt_succ_self a)
    · exact lt_max_of_lt_left (hn a ha)

/-- The owners after `t` has been given the blocks of `l`. -/
def giveTo (owner : Addr → Own Tid) (t : Tid) (l : List Addr) : Addr → Own Tid :=
  fun a => if a ∈ l then .held t else owner a

theorem giveTo_of_mem (ha : a ∈ l) :
    giveTo owner t l a = .held t := if_pos ha

theorem giveTo_of_notMem (ha : a ∉ l) :
    giveTo owner t l a = owner a := if_neg ha

/-- The heap after a chain was allocated at `as`. -/
structure NewChain (s : Shared T) (as : List Addr) (s' : Shared T) : Prop where
  old : ∀ a, a ∉ as → s'.heap a = s.heap a
  clean : ∀ a ∈ as, (s'.heap a).Clean
  path : Linked s' as
  rest : ∃ heap arena, s' = { s with heap := heap, arena := arena }

theorem newChain_path (hnd : as.Nodup) {nxt : Addr → Option Addr}
    (hn : ∀ a ∈ as, nxt a = as[as.idxOf a + 1]?) : LinkPath nxt as.head? as none := by
  have hdrop : ∀ l i, as.drop i = l → LinkPath nxt l.head? l none := by
    intro l
    induction l with
    | nil => exact fun i _ => rfl
    | cons b l ih =>
      intro i hi
      have hlen : i < as.length := by
        by_contra hc
        rw [List.drop_eq_nil_of_le (by omega)] at hi
        exact absurd hi (by simp)
      rw [List.drop_eq_getElem_cons hlen] at hi
      obtain ⟨hb, hl⟩ := List.cons.inj hi
      refine ⟨rfl, ?_⟩
      have hidx : as.idxOf b = i := by
        rw [← hb]
        exact hnd.idxOf_getElem i hlen
      rw [hn b (hb ▸ List.getElem_mem hlen), hidx, ← List.head?_drop, hl]
      exact ih (i + 1) hl
  exact hdrop as 0 rfl

/-- What `BlockChain::new` leaves behind. -/
theorem newChain_spec (s : Shared T) (hne : as ≠ []) (hnd : as.Nodup) :
    NewChain s as (s.newChain as) := by
  match as, hne, hnd with
  | [a], _, _ =>
    refine ⟨fun b hb => ?_, fun b hb => ?_, ?_, _, _, rfl⟩
    · exact update_of_ne (by simpa using hb) _ _
    · rw [List.mem_singleton] at hb
      subst hb
      simp [Shared.newChain, Block.new, Block.Clean, Slot.new]
    · refine ⟨rfl, ?_⟩
      simp [Shared.newChain, Shared.next, Block.new, LinkPath]
  | a :: b :: l, _, hnd =>
    refine ⟨fun c hc => if_neg hc, fun c hc => ?_, ?_, _, _, rfl⟩
    · show (if c ∈ a :: b :: l then _ else _ : Block T).Clean
      rw [if_pos hc]
      exact ⟨rfl, fun _ => rfl⟩
    · refine newChain_path hnd fun c hc => ?_
      show (if c ∈ a :: b :: l then _ else _ : Block T).next = _
      rw [if_pos hc]
      rfl

/-! ## Allocating -/

theorem allocate_bounded (h : Pages m run owner) (as : List Addr) :
    ∃ n : ℕ, ∀ a : ℕ, n ≤ a → (m.allocate as).allocated a = false := by
  obtain ⟨n, hn⟩ := h.bounded
  obtain ⟨n', hn'⟩ := exists_bound as
  refine ⟨max n n', fun b hb => ?_⟩
  have hba : b ∉ as := fun hc => by
    have h1 := hn' b hc
    have h2 := le_of_max_le_right hb
    exact absurd h1 (Nat.not_lt.mpr h2)
  simpa [Arena.allocate, hba] using hn b (le_of_max_le_left hb)

/-- A page is handed out when it was owned by nobody. -/
theorem allocate_count (h : Pages m run owner) (hnd : as.Nodup)
    (hfree : ∀ a ∈ as, m.allocated a = false) (a : Addr) :
    (m.made ++ as).count a = m.gone.count a + (Own.inUse (giveTo owner t as a)).toNat := by
  rw [List.count_append, h.count a]
  by_cases haa : a ∈ as
  · rw [h.freed a (hfree a haa), giveTo_of_mem haa, List.count_eq_one_of_mem hnd haa]
    rfl
  · rw [giveTo_of_notMem haa, List.count_eq_zero_of_not_mem haa]
    rfl

/-- The pages of a run in use are allocated, so none of them is handed out. -/
theorem whole_notMem (h : Pages m run owner)
    (hfree : ∀ a ∈ as, m.allocated a = false) {r : ℕ} (hr : r < m.runCount)
    (hpos : 0 < (m.runs r).remaining) : ∀ b ∈ (m.runs r).members, b ∉ as := by
  intro b hb hc
  have hal := ((h.whole r hr hpos).2 b hb).1
  simp [hfree b hc] at hal

/-- Allocating one standalone page. -/
theorem Pages.page (h : Pages m run owner) (ha : m.allocated a = false)
    (hself : run' a = none) (hrun : ∀ b, b ≠ a → run' b = run b) :
    Pages (m.allocate [a]) run' (giveTo owner t [a]) := by
  have hfree : ∀ b ∈ [a], m.allocated b = false := by simpa using ha
  have hfa : owner a = .free := h.freed a ha
  have hal : ∀ b, b ≠ a → (m.allocate [a]).allocated b = m.allocated b :=
    fun b hb => if_neg (by simpa using hb)
  have hown : ∀ b, b ≠ a → giveTo owner t [a] b = owner b :=
    fun b hb => giveTo_of_notMem (by simpa using hb)
  have hta : giveTo owner t [a] a = .held t := giveTo_of_mem (by simp)
  refine ⟨fun b hb => ?_, fun b r hb hr => ?_, fun r hr hpos => ?_, fun r hr => ?_,
    fun b hb hb' => ?_, allocate_bounded h [a], allocate_count h (by simp) hfree,
    h.released_nodup, h.released_iff⟩
  · by_cases hba : b = a
    · subst hba
      simp [Arena.allocate] at hb
    · rw [hown b hba]
      exact h.freed b (hal b hba ▸ hb)
  · by_cases hba : b = a
    · subst hba
      simp [hself] at hr
    · rw [hown b hba] at hb
      exact h.member b r hb (hrun b hba ▸ hr)
  · obtain ⟨h1, h2⟩ := h.whole r hr hpos
    refine ⟨h1, fun b hb => ?_⟩
    have hba : b ≠ a := fun hc => whole_notMem h hfree hr hpos b hb (by simp [hc])
    rw [hal b hba, hrun b hba]
    exact h2 b hb
  · show (m.runs r).remaining = _
    rw [h.remaining r hr]
    apply List.countP_congr
    intro b _
    by_cases hba : b = a
    · subst hba
      simp [hfa, hself]
    · rw [hown b hba, hrun b hba]
  · have hba : b ≠ a := by
      rintro rfl
      simp [hta] at hb
    rw [hown b hba] at hb
    rw [hal b hba] at hb'
    rw [hrun b hba]
    exact h.single b hb hb'

/-- Allocating a run of pages. -/
theorem Pages.pageRun (h : Pages m run owner) (hne : as ≠ [])
    (hnd : as.Nodup) (hfree : ∀ a ∈ as, m.allocated a = false)
    (hself : ∀ a ∈ as, run' a = some m.runCount) (hrun : ∀ b, b ∉ as → run' b = run b) :
    Pages ((m.allocate as).newRun as) run' (giveTo owner t as) := by
  have hal : ∀ b, b ∉ as → ((m.allocate as).newRun as).allocated b = m.allocated b :=
    fun b hb => if_neg hb
  have halin : ∀ b ∈ as, ((m.allocate as).newRun as).allocated b = true := fun b hb => if_pos hb
  have hnew : ((m.allocate as).newRun as).runs m.runCount = ⟨as, as.length⟩ :=
    update_self _ _ _
  have hold : ∀ r, r ≠ m.runCount → ((m.allocate as).newRun as).runs r = m.runs r :=
    fun r hr => update_of_ne hr _ _
  have hlt : ∀ r, r < m.runCount + 1 → r ≠ m.runCount → r < m.runCount := fun r h1 h2 => by omega
  refine ⟨fun b hb => ?_, fun b r hb hr => ?_, fun r hr hpos => ?_, fun r hr => ?_,
    fun b hb hb' => ?_, allocate_bounded h as, allocate_count h hnd hfree, h.released_nodup,
    fun r => ?_⟩
  · by_cases hba : b ∈ as
    · simp [halin b hba] at hb
    · rw [giveTo_of_notMem hba]
      exact h.freed b (hal b hba ▸ hb)
  · by_cases hba : b ∈ as
    · rw [hself b hba] at hr
      cases hr
      rw [hnew]
      exact ⟨Nat.lt_succ_self _, hba⟩
    · rw [giveTo_of_notMem hba] at hb
      obtain ⟨h1, h2⟩ := h.member b r hb (hrun b hba ▸ hr)
      rw [hold r (Nat.ne_of_lt h1)]
      exact ⟨Nat.lt_succ_of_lt h1, h2⟩
  · by_cases hrr : r = m.runCount
    · subst hrr
      rw [hnew]
      exact ⟨hnd, fun b hb => ⟨halin b hb, hself b hb⟩⟩
    · rw [hold r hrr] at hpos ⊢
      obtain ⟨h1, h2⟩ := h.whole r (hlt r hr hrr) hpos
      refine ⟨h1, fun b hb => ?_⟩
      have hba := whole_notMem h hfree (hlt r hr hrr) hpos b hb
      rw [hal b hba, hrun b hba]
      exact h2 b hb
  · by_cases hrr : r = m.runCount
    · subst hrr
      rw [hnew]
      symm
      rw [List.countP_eq_length]
      intro b hb
      simp [giveTo_of_mem hb, hself b hb]
    · rw [hold r hrr, h.remaining r (hlt r hr hrr)]
      apply List.countP_congr
      intro b _
      by_cases hba : b ∈ as
      · simp [h.freed b (hfree b hba), hself b hba, Ne.symm hrr]
      · rw [giveTo_of_notMem hba, hrun b hba]
  · have hba : b ∉ as := by
      intro hc
      simp [giveTo_of_mem hc] at hb
    rw [giveTo_of_notMem hba] at hb
    rw [hal b hba] at hb'
    obtain ⟨r, h1, h2, h3, h4⟩ := h.single b hb hb'
    refine ⟨r, (hrun b hba).trans h1, Nat.lt_succ_of_lt h2, ?_, ?_⟩
    · rwa [hold r (Nat.ne_of_lt h2)]
    · rwa [hold r (Nat.ne_of_lt h2)]
  · show r ∈ m.released ↔ r < m.runCount + 1 ∧ _
    rw [h.released_iff r]
    by_cases hrr : r = m.runCount
    · subst hrr
      rw [hnew]
      simp [hne]
    · rw [hold r hrr]
      have : r < m.runCount + 1 ↔ r < m.runCount := ⟨fun hr => hlt r hr hrr, Nat.lt_succ_of_lt⟩
      rw [this]

/-- **Allocating a chain.** -/
theorem Pages.newChain (h : Pages s.arena s.runOf owner)
    (hne : as ≠ []) (hnd : as.Nodup) (hfree : ∀ a ∈ as, s.arena.allocated a = false) :
    Pages (s.newChain as).arena (s.newChain as).runOf (giveTo owner t as) := by
  match as, hne, hnd, hfree with
  | [a], _, _, hfree =>
    refine h.page (hfree a (by simp)) ?_ fun b hb => ?_
    · simp [Shared.runOf, Shared.newChain, Block.new]
    · show (update s.heap a _ b).run = (s.heap b).run
      rw [update_of_ne hb]
  | a :: b :: l, hne, hnd, hfree =>
    refine h.pageRun hne hnd hfree (fun c hc => ?_) fun c hc => ?_
    · show (if c ∈ a :: b :: l then _ else _ : Block T).run = _
      rw [if_pos hc]
      rfl
    · show (if c ∈ a :: b :: l then _ else _ : Block T).run = _
      rw [if_neg hc]
      rfl

/-! ## Freeing -/

/-- One more block is gone. -/
theorem free_count (h : Pages m run owner) (ha : owner a ≠ .free) (b : Addr) :
    m.made.count b = (m.gone ++ [a]).count b +
      (Own.inUse (update owner a .free b)).toNat := by
  rw [h.count b, List.count_append]
  by_cases hba : b = a
  · subst hba
    rw [update_self, inUse_iff.mpr ha]
    simp [Own.inUse]
  · have hb : [a].count b = 0 := List.count_eq_zero_of_not_mem (by simpa using hba)
    rw [update_of_ne hba, hb]
    omega

/-- Freeing a standalone page. -/
theorem Pages.deallocate (h : Pages m run owner) (ha : owner a ≠ .free)
    (hrun : run a = none) : Pages (m.deallocate a) run (update owner a .free) := by
  have hne : ∀ b, b ≠ a → update owner a .free b = owner b :=
    fun b hb => update_of_ne hb _ _
  have hself : update owner a .free a = .free := update_self _ _ _
  have hal : ∀ b, b ≠ a → (m.deallocate a).allocated b = m.allocated b :=
    fun b hb => update_of_ne hb _ _
  have hala : (m.deallocate a).allocated a = false := update_self _ _ _
  refine ⟨fun b hb => ?_, fun b r hb hr => ?_, fun r hr hpos => ?_, fun r hr => ?_,
    fun b hb hb' => ?_, ?_, free_count h ha, h.released_nodup, h.released_iff⟩
  · by_cases hba : b = a
    · rw [hba, hself]
    · rw [hne b hba]
      exact h.freed b (hal b hba ▸ hb)
  · have hba : b ≠ a := by
      rintro rfl
      exact hb hself
    exact h.member b r (hne b hba ▸ hb) hr
  · obtain ⟨h1, h2⟩ := h.whole r hr hpos
    refine ⟨h1, fun b hb => ?_⟩
    have hba : b ≠ a := by
      rintro rfl
      have := (h2 b hb).2
      simp [hrun] at this
    exact ⟨(hal b hba).trans (h2 b hb).1, (h2 b hb).2⟩
  · show (m.runs r).remaining = _
    rw [h.remaining r hr]
    apply List.countP_congr
    intro b _
    by_cases hba : b = a
    · subst hba
      simp [hrun]
    · rw [hne b hba]
  · have hba : b ≠ a := by
      rintro rfl
      simp [hala] at hb'
    exact h.single b (hne b hba ▸ hb) (hal b hba ▸ hb')
  · obtain ⟨n, hn⟩ := h.bounded
    refine ⟨n, fun b hb => ?_⟩
    by_cases hba : b = a
    · rw [hba, hala]
    · rw [hal b hba]
      exact hn b hb

/-- Freeing a page of a run. -/
theorem Pages.release (h : Pages m run owner) {r : ℕ} (ha : owner a ≠ .free)
    (hrun : run a = some r) : Pages (m.release a r) run (update owner a .free) := by
  have hne : ∀ b, b ≠ a → update owner a .free b = owner b :=
    fun b hb => update_of_ne hb _ _
  have hself : update owner a .free a = .free := update_self _ _ _
  obtain ⟨hr, hmem⟩ := h.member a r ha hrun
  have hpos : 0 < (m.runs r).remaining := by
    rw [h.remaining r hr, List.countP_pos_iff]
    exact ⟨a, hmem, by simp [ha, hrun]⟩
  obtain ⟨hnd, hwhole⟩ := h.whole r hr hpos
  have hcount := countP_release (p := fun b => Own.inUse (owner b) && run b == some r)
    (q := fun b => Own.inUse (update owner a .free b) && run b == some r)
    hnd hmem (by simp [ha, hrun]) (by simp [Own.inUse]) (fun b _ hb => by rw [hne b hb])
  rw [← h.remaining r hr] at hcount
  have hnew : (m.release a r).runs r = { m.runs r with remaining := (m.runs r).remaining - 1 } :=
    update_self _ _ _
  have hold : ∀ r', r' ≠ r → (m.release a r).runs r' = m.runs r' :=
    fun r' hr' => update_of_ne hr' _ _
  have hal : ∀ b, (m.release a r).allocated b = true →
      m.allocated b = true ∧ ¬ ((m.runs r).remaining = 1 ∧ b ∈ (m.runs r).members) := by
    intro b hb
    by_cases hlast : (m.runs r).remaining = 1 ∧ b ∈ (m.runs r).members
    · simp [Arena.release, hlast] at hb
    · refine ⟨?_, hlast⟩
      rwa [show (m.release a r).allocated b = m.allocated b from if_neg hlast] at hb
  have hkeep : ∀ b, ¬ ((m.runs r).remaining = 1 ∧ b ∈ (m.runs r).members) →
      (m.release a r).allocated b = m.allocated b := fun b hb => if_neg hb
  -- the last page in use was `a`, so the others of the run are free
  have hothers : (m.runs r).remaining = 1 → ∀ b ∈ (m.runs r).members, b ≠ a → owner b = .free := by
    intro hone b hb hba
    have hzero : (m.runs r).members.countP
        (fun b => Own.inUse (update owner a .free b) && run b == some r) = 0 := by omega
    have hb0 := List.countP_eq_zero.mp hzero b hb
    by_contra hbf
    exact hb0 (by simp [hne b hba, hbf, (hwhole b hb).2])
  -- members of another run in use are not members of this one
  have hdisj : ∀ r', r' ≠ r → r' < m.runCount → 0 < (m.runs r').remaining →
      ∀ b ∈ (m.runs r').members, b ∉ (m.runs r).members := by
    intro r' hrr hr' hpos' b hb hc
    have h3 := (hwhole b hc).2
    rw [((h.whole r' hr' hpos').2 b hb).2] at h3
    exact hrr (Option.some.inj h3)
  refine ⟨fun b hb => ?_, fun b r' hb hr' => ?_, fun r' hr' hpos' => ?_, fun r' hr' => ?_,
    fun b hb hb' => ?_, ?_, free_count h ha, ?_, fun r' => ?_⟩
  · by_cases hba : b = a
    · rw [hba, hself]
    · rw [hne b hba]
      by_cases hlast : (m.runs r).remaining = 1 ∧ b ∈ (m.runs r).members
      · exact hothers hlast.1 b hlast.2 hba
      · exact h.freed b (hkeep b hlast ▸ hb)
  · have hba : b ≠ a := by
      rintro rfl
      exact hb hself
    obtain ⟨h1, h2⟩ := h.member b r' (hne b hba ▸ hb) hr'
    refine ⟨h1, ?_⟩
    by_cases hrr : r' = r
    · subst hrr
      rwa [hnew]
    · rwa [hold r' hrr]
  · by_cases hrr : r' = r
    · subst hrr
      rw [hnew] at hpos' ⊢
      refine ⟨hnd, fun b hb => ?_⟩
      have hpos'' : 0 < (m.runs r').remaining - 1 := hpos'
      rw [hkeep b (fun hc => by omega)]
      exact hwhole b hb
    · rw [hold r' hrr] at hpos' ⊢
      obtain ⟨h1, h2⟩ := h.whole r' hr' hpos'
      refine ⟨h1, fun b hb => ?_⟩
      rw [hkeep b (fun hc => hdisj r' hrr hr' hpos' b hb hc.2)]
      exact h2 b hb
  · by_cases hrr : r' = r
    · subst hrr
      rw [hnew]
      show (m.runs r').remaining - 1 = (m.runs r').members.countP _
      omega
    · rw [hold r' hrr, h.remaining r' hr']
      apply List.countP_congr
      intro b _
      by_cases hba : b = a
      · subst hba
        simp [hrun, Ne.symm hrr]
      · rw [hne b hba]
  · obtain ⟨hb1, hb2⟩ := hal b hb'
    by_cases hba : b = a
    · subst hba
      refine ⟨r, hrun, hr, ?_, ?_⟩
      · rw [hnew]
        show 0 < (m.runs r).remaining - 1
        have : (m.runs r).remaining ≠ 1 := fun hc => hb2 ⟨hc, hmem⟩
        omega
      · rwa [hnew]
    · obtain ⟨r', h1, h2, h3, h4⟩ := h.single b (hne b hba ▸ hb) hb1
      refine ⟨r', h1, h2, ?_⟩
      by_cases hrr : r' = r
      · subst hrr
        rw [hnew]
        have : (m.runs r').remaining ≠ 1 := fun hc => hb2 ⟨hc, h4⟩
        exact ⟨by show 0 < (m.runs r').remaining - 1; omega, h4⟩
      · rw [hold r' hrr]
        exact ⟨h3, h4⟩
  · obtain ⟨n, hn⟩ := h.bounded
    refine ⟨n, fun b hb => ?_⟩
    show (if _ then false else m.allocated b) = false
    rw [hn b hb]
    simp
  · show (if _ then m.released ++ [r] else m.released).Nodup
    split
    · rw [List.nodup_append']
      refine ⟨h.released_nodup, by simp, fun x hx hxr => ?_⟩
      rw [List.mem_singleton] at hxr
      subst hxr
      have := ((h.released_iff x).mp hx).2
      omega
    · exact h.released_nodup
  · show r' ∈ (if _ then m.released ++ [r] else m.released) ↔ r' < m.runCount ∧ _
    by_cases hrr : r' = r
    · subst hrr
      have hnot : r' ∉ m.released := fun hc => by
        have := ((h.released_iff r').mp hc).2
        omega
      rw [hnew]
      show _ ↔ r' < m.runCount ∧ (m.runs r').remaining - 1 = 0
      split
      · rename_i hone
        simp [hone, hr]
      · simp only [hnot, false_iff, not_and]
        omega
    · rw [hold r' hrr, ← h.released_iff r']
      split
      · simp [hrr]
      · rfl

/-- **Freeing a block that is in use.** -/
theorem Pages.free (h : Pages s.arena s.runOf owner) (cfg : Config)
    (ha : owner a ≠ .free) :
    Pages (s.free cfg a).arena (s.free cfg a).runOf (update owner a .free) := by
  unfold Shared.free
  dsimp only
  cases hrun : (s.heap a).run with
  | none => exact h.deallocate ha hrun
  | some r => exact h.release ha hrun

end Mpmc
