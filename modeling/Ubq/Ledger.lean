/-
# A ledger of tickets

The abstract purpose of a ticketed queue.  Positions `0, 1, 2, …` are handed to
producers and to consumers; the ledger records, for each position, how far its
producer and its consumer have come:

* producer side: `free → reserved t v → copied t v → published v`,
* consumer side: `free → claimed t → taken t → done`.

Positions below `ppos` have been reserved and positions below `cpos` have been
claimed.  `Step t` lists everything thread `t` may do to the ledger, guards
included: it moves only its own cells, it takes only published values, and it
may give back the end of what it has claimed (`retract`).  Hence the two facts
every protocol uses: `Step.wf` (the ledger stays well formed) and `Step.frame`
(the other threads' cells are untouched).
-/
import Ubq.Tally
import Mathlib.Data.List.Basic
import Mathlib.Logic.Function.Basic

namespace Ledger

/-- The producer side of one position. -/
inductive PCell (ι α : Type*)
  | free
  | reserved (t : ι) (v : α)
  | copied (t : ι) (v : α)
  | published (v : α)

/-- The consumer side of one position. -/
inductive CCell (ι : Type*)
  | free
  | claimed (t : ι)
  | taken (t : ι)
  | done

namespace PCell

variable {ι α : Type*}

/-- The value assigned to the position, once it is reserved. -/
@[simp] def value? : PCell ι α → Option α
  | free => none
  | reserved _ v => some v
  | copied _ v => some v
  | published v => some v

/-- The value can be taken. -/
@[simp] def isPublished : PCell ι α → Bool
  | published _ => true
  | _ => false

/-- Publication keeps the value and forgets the producer. -/
@[simp] def publish : PCell ι α → PCell ι α
  | free => free
  | reserved _ v => published v
  | copied _ v => published v
  | published v => published v

theorem isPublished_iff {c : PCell ι α} : c.isPublished = true ↔ ∃ v, c = published v := by
  cases c <;> simp

end PCell

namespace CCell

variable {ι : Type*}

/-- The position is completed. -/
@[simp] def isDone : CCell ι → Bool
  | done => true
  | _ => false

theorem isDone_iff {c : CCell ι} : c.isDone = true ↔ c = done := by
  cases c <;> simp

end CCell

end Ledger

open Ledger

/-- The state of every position, and the two frontiers. -/
structure Ledger (ι α : Type*) where
  prod : ℕ → PCell ι α
  cons : ℕ → CCell ι
  ppos : ℕ
  cpos : ℕ

namespace Ledger

open Function

variable {ι α : Type*}

/-- Nothing reserved, nothing claimed. -/
def empty : Ledger ι α := ⟨fun _ => .free, fun _ => .free, 0, 0⟩

/-- `t` reserves the next positions for the values `vs`, in order. -/
@[simps ppos] def reserve (L : Ledger ι α) (t : ι) (vs : List α) : Ledger ι α :=
  { L with
    prod := fun p => if L.ppos ≤ p then (vs[p - L.ppos]?).elim (L.prod p) (.reserved t)
      else L.prod p
    ppos := L.ppos + vs.length }

/-- `t` has stored the value of position `p`. -/
@[simps prod ppos] def copy (L : Ledger ι α) (t : ι) (p : ℕ) (v : α) : Ledger ι α :=
  { L with prod := update L.prod p (.copied t v) }

/-- The positions `[a, a + n)` are published. -/
@[simps cons ppos] def publish (L : Ledger ι α) (a n : ℕ) : Ledger ι α :=
  { L with prod := fun p => if a ≤ p ∧ p < a + n then (L.prod p).publish else L.prod p }

/-- `t` claims the next `n` positions. -/
@[simps cpos] def claim (L : Ledger ι α) (t : ι) (n : ℕ) : Ledger ι α :=
  { L with
    cons := fun p => if L.cpos ≤ p ∧ p < L.cpos + n then .claimed t else L.cons p
    cpos := L.cpos + n }

/-- The claims from `r` on are given back. -/
@[simps cpos] def retract (L : Ledger ι α) (r : ℕ) : Ledger ι α :=
  { L with
    cons := fun p => if r ≤ p then .free else L.cons p
    cpos := r }

/-- `t` takes the value at position `p`. -/
@[simps prod cons cpos] def take (L : Ledger ι α) (t : ι) (p : ℕ) : Ledger ι α :=
  { L with cons := update L.cons p (.taken t) }

/-- The positions `[a, a + n)` are completed. -/
@[simps prod cpos] def complete (L : Ledger ι α) (a n : ℕ) : Ledger ι α :=
  { L with cons := fun p => if a ≤ p ∧ p < a + n then .done else L.cons p }

/-- The value `x` has been stored at position `p`, published or not. -/
def Stored (L : Ledger ι α) (p : ℕ) (x : α) : Prop :=
  L.prod p = .published x ∨ ∃ t, L.prod p = .copied t x

/-- Everything `t` has reserved but not published lies in `[a, a + n)`. -/
def Pending (L : Ledger ι α) (t : ι) (a n : ℕ) : Prop :=
  ∀ p v, (L.prod p = .reserved t v ∨ L.prod p = .copied t v) → a ≤ p ∧ p < a + n

/-- The frontiers bound the cells in use, and only published values are taken. -/
structure WF (L : Ledger ι α) : Prop where
  prod_free : ∀ p, L.prod p = .free ↔ L.ppos ≤ p
  cons_free : ∀ p, L.cons p = .free ↔ L.cpos ≤ p
  taken_published : ∀ p t, L.cons p = .taken t → ∃ v, L.prod p = .published v
  done_published : ∀ p, L.cons p = .done → ∃ v, L.prod p = .published v

/-- The empty ledger is well formed. -/
theorem empty_wf : (empty : Ledger ι α).WF where
  prod_free := fun p => by simp [empty]
  cons_free := fun p => by simp [empty]
  taken_published := fun p t h => by simp [empty] at h
  done_published := fun p h => by simp [empty] at h

/-- Everything thread `t` may do to the ledger. -/
inductive Step (t : ι) (L : Ledger ι α) : Ledger ι α → Prop
  | skip : Step t L L
  | reserve (vs : List α) : Step t L (L.reserve t vs)
  | copy (p : ℕ) (v : α) : L.prod p = .reserved t v → Step t L (L.copy t p v)
  | publish (a n : ℕ) :
      (∀ p, a ≤ p → p < a + n → ∃ v, L.prod p = .copied t v ∨ L.prod p = .reserved t v) →
      Step t L (L.publish a n)
  | claim (n : ℕ) : Step t L (L.claim t n)
  | retract (r : ℕ) : r ≤ L.cpos → (∀ p, r ≤ p → p < L.cpos → L.cons p = .claimed t) →
      Step t L (L.retract r)
  | take (p : ℕ) (v : α) : L.cons p = .claimed t → L.prod p = .published v →
      Step t L (L.take t p)
  | complete (a n : ℕ) : (∀ p, a ≤ p → p < a + n → L.cons p = .taken t) →
      Step t L (L.complete a n)

/-- What thread `u` may rely on while the others move. -/
structure Frame (u : ι) (L L' : Ledger ι α) : Prop where
  reserved : ∀ p v, L.prod p = .reserved u v → L'.prod p = .reserved u v
  copied : ∀ p v, L.prod p = .copied u v → L'.prod p = .copied u v
  pending : ∀ a n, L.Pending u a n → L'.Pending u a n
  published : ∀ p v, L.prod p = .published v → L'.prod p = .published v
  claimed : ∀ p, L.cons p = .claimed u → L'.cons p = .claimed u
  taken : ∀ p, L.cons p = .taken u → L'.cons p = .taken u
  done : ∀ p, L.cons p = .done → L'.cons p = .done
  ppos : L.ppos ≤ L'.ppos

/-- A ledger that does not change. -/
theorem Frame.refl (u : ι) (L : Ledger ι α) : Frame u L L :=
  ⟨fun _ _ h => h, fun _ _ h => h, fun _ _ h => h, fun _ _ h => h, fun _ h => h, fun _ h => h,
    fun _ h => h, le_refl _⟩

section Reserve

variable (L : Ledger ι α) (t : ι) (vs : List α)

/-- A reservation leaves the earlier positions alone. -/
theorem reserve_prod_old {p : ℕ} (hp : p < L.ppos) : (L.reserve t vs).prod p = L.prod p := by
  simp only [reserve]
  rw [if_neg (by omega)]

/-- The positions of a reservation hold its values. -/
theorem reserve_prod_new {j : ℕ} {v : α} (hj : vs[j]? = some v) :
    (L.reserve t vs).prod (L.ppos + j) = .reserved t v := by
  simp only [reserve]
  rw [if_pos (by omega), Nat.add_sub_cancel_left, hj]
  rfl

/-- A reservation leaves the later positions alone. -/
theorem reserve_prod_beyond {p : ℕ} (hp : L.ppos + vs.length ≤ p) :
    (L.reserve t vs).prod p = L.prod p := by
  simp only [reserve]
  rw [if_pos (by omega), List.getElem?_eq_none (by omega)]
  rfl

end Reserve

section Simp

variable (L : Ledger ι α) (t : ι)

theorem publish_prod_in {a n p : ℕ} (ha : a ≤ p) (hn : p < a + n) :
    (L.publish a n).prod p = (L.prod p).publish := if_pos ⟨ha, hn⟩

theorem publish_prod_out {a n p : ℕ} (h : ¬ (a ≤ p ∧ p < a + n)) :
    (L.publish a n).prod p = L.prod p := if_neg h

theorem claim_cons_in {n p : ℕ} (h1 : L.cpos ≤ p) (h2 : p < L.cpos + n) :
    (L.claim t n).cons p = .claimed t := if_pos ⟨h1, h2⟩

theorem claim_cons_out {n p : ℕ} (h : ¬ (L.cpos ≤ p ∧ p < L.cpos + n)) :
    (L.claim t n).cons p = L.cons p := if_neg h

theorem retract_cons_in {r p : ℕ} (h : r ≤ p) : (L.retract r).cons p = .free := if_pos h

theorem retract_cons_out {r p : ℕ} (h : p < r) : (L.retract r).cons p = L.cons p :=
  if_neg (by omega)

theorem complete_cons_in {a n p : ℕ} (h1 : a ≤ p) (h2 : p < a + n) :
    (L.complete a n).cons p = .done := if_pos ⟨h1, h2⟩

theorem complete_cons_out {a n p : ℕ} (h : ¬ (a ≤ p ∧ p < a + n)) :
    (L.complete a n).cons p = L.cons p := if_neg h

end Simp

variable {L L' : Ledger ι α} {t u : ι}

/-- What is not free has been reserved. -/
theorem WF.reserved_lt (h : L.WF) {p : ℕ} (hp : L.prod p ≠ .free) : p < L.ppos := by
  by_contra hc
  exact hp ((h.prod_free p).mpr (by omega))

/-- A position that nobody has still to write is published. -/
theorem WF.published_of_settled (h : L.WF) {p : ℕ} (hp : p < L.ppos)
    (hnone : ∀ u v, ¬ (L.prod p = .reserved u v ∨ L.prod p = .copied u v)) :
    ∃ x, L.prod p = .published x := by
  cases hcell : L.prod p with
  | free =>
    have := (h.prod_free p).mp hcell
    omega
  | reserved u v => exact absurd (Or.inl hcell) (hnone u v)
  | copied u v => exact absurd (Or.inr hcell) (hnone u v)
  | published x => exact ⟨x, rfl⟩

/-- What is not free has been claimed. -/
theorem WF.claimed_lt (h : L.WF) {p : ℕ} (hp : L.cons p ≠ .free) : p < L.cpos := by
  by_contra hc
  exact hp ((h.cons_free p).mpr (by omega))

/-! ## Which marks an operation can change -/

section Marks

variable {vs : List α} {p q a n : ℕ} {v x : α}

/-- A reservation changes free positions only. -/
theorem WF.reserve_prod (hw : L.WF) (t : ι) (vs : List α) (p : ℕ) :
    (L.reserve t vs).prod p = L.prod p ∨
      (L.prod p = .free ∧ ∃ v, (L.reserve t vs).prod p = .reserved t v) := by
  by_cases h1 : p < L.ppos
  · exact Or.inl (reserve_prod_old L t vs h1)
  · by_cases h2 : p < L.ppos + vs.length
    · obtain ⟨j, rfl⟩ : ∃ j, p = L.ppos + j := ⟨p - L.ppos, by omega⟩
      refine Or.inr ⟨(hw.prod_free _).mpr (by omega), vs[j], ?_⟩
      exact reserve_prod_new L t vs (List.getElem?_eq_getElem (by omega))
    · exact Or.inl (reserve_prod_beyond L t vs (by omega))

theorem WF.reserve_isPublished (hw : L.WF) :
    ((L.reserve t vs).prod p).isPublished = (L.prod p).isPublished := by
  rcases hw.reserve_prod t vs p with h | ⟨h, v, hv⟩
  · rw [h]
  · rw [h, hv]; rfl

theorem WF.reserve_published (hw : L.WF) :
    (L.reserve t vs).prod p = .published x ↔ L.prod p = .published x := by
  rcases hw.reserve_prod t vs p with h | ⟨h, v, hv⟩
  · rw [h]
  · rw [h, hv]
    simp

/-- A reservation stores nothing. -/
theorem WF.reserve_stored (hw : L.WF) (h : (L.reserve t vs).Stored p x) : L.Stored p x := by
  rcases hw.reserve_prod t vs p with he | ⟨_, v, hv⟩
  · rcases h with h | ⟨u, h⟩
    · exact Or.inl (he ▸ h)
    · exact Or.inr ⟨u, he ▸ h⟩
  · rcases h with h | ⟨u, h⟩ <;> rw [hv] at h <;> exact absurd h (by simp)

theorem copy_isPublished (hq : L.prod q = .reserved t v) :
    ((L.copy t q v).prod p).isPublished = (L.prod p).isPublished := by
  by_cases hpq : p = q
  · subst hpq
    simp [hq]
  · simp [update_of_ne hpq]

/-- A copy stores its own value only. -/
theorem copy_stored (h : (L.copy t q v).Stored p x) : (p = q ∧ x = v) ∨ (p ≠ q ∧ L.Stored p x) := by
  by_cases hpq : p = q
  · subst hpq
    left
    rcases h with h | ⟨u, h⟩
    · simp at h
    · simp at h
      exact ⟨rfl, h.2.symm⟩
  · right
    refine ⟨hpq, ?_⟩
    simpa [Stored, update_of_ne hpq] using h

/-- Publishing stores nothing. -/
theorem publish_stored (hall : ∀ p, a ≤ p → p < a + n → ∃ v, L.prod p = .copied t v)
    (h : (L.publish a n).Stored p x) : L.Stored p x := by
  by_cases hin : a ≤ p ∧ p < a + n
  · obtain ⟨v, hv⟩ := hall p hin.1 hin.2
    have hpub : (L.publish a n).prod p = .published v := by
      rw [publish_prod_in L hin.1 hin.2, hv]
      rfl
    rcases h with h | ⟨u, h⟩
    · rw [hpub] at h
      exact Or.inr ⟨t, by rw [hv]; simpa using h⟩
    · simp [hpub] at h
  · simpa [Stored, publish_prod_out L hin] using h

theorem copy_value? (hq : L.prod q = .reserved t v) :
    ((L.copy t q v).prod p).value? = (L.prod p).value? := by
  by_cases hpq : p = q
  · subst hpq
    simp [hq]
  · simp [update_of_ne hpq]

theorem publish_value? (hall : ∀ p, a ≤ p → p < a + n → ∃ v, L.prod p = .copied t v) :
    ((L.publish a n).prod p).value? = (L.prod p).value? := by
  by_cases hin : a ≤ p ∧ p < a + n
  · obtain ⟨v, hv⟩ := hall p hin.1 hin.2
    rw [publish_prod_in L hin.1 hin.2, hv]
    rfl
  · rw [publish_prod_out L hin]

/-- A claim changes free positions only. -/
theorem WF.claim_cons (hw : L.WF) (t : ι) (n p : ℕ) :
    (L.claim t n).cons p = L.cons p ∨ (L.cons p = .free ∧ (L.claim t n).cons p = .claimed t) := by
  by_cases hin : L.cpos ≤ p ∧ p < L.cpos + n
  · exact Or.inr ⟨(hw.cons_free p).mpr hin.1, claim_cons_in L t hin.1 hin.2⟩
  · exact Or.inl (claim_cons_out L t hin)

theorem WF.claim_isDone (hw : L.WF) : ((L.claim t n).cons p).isDone = (L.cons p).isDone := by
  rcases hw.claim_cons t n p with h | ⟨h1, h2⟩
  · rw [h]
  · rw [h1, h2]; rfl

theorem take_isDone (hq : L.cons q = .claimed t) :
    ((L.take t q).cons p).isDone = (L.cons p).isDone := by
  by_cases hpq : p = q
  · subst hpq
    simp [hq]
  · simp [update_of_ne hpq]

end Marks

/-- A value once assigned to a position stays, and only the owner of a claim
can give a position back. -/
theorem Step.value? (hw : L.WF) (h : Step t L L') {p : ℕ} {v : α}
    (hv : (L.prod p).value? = some v) : (L'.prod p).value? = some v := by
  have hlt : p < L.ppos := hw.reserved_lt (by rintro hc; rw [hc] at hv; simp at hv)
  cases h with
  | skip => exact hv
  | reserve vs => rwa [reserve_prod_old L t vs hlt]
  | copy q w hq =>
    by_cases hpq : p = q
    · subst hpq
      rw [hq] at hv
      simpa using hv
    · simpa [update_of_ne hpq] using hv
  | publish a n hall =>
    by_cases hin : a ≤ p ∧ p < a + n
    · rw [publish_prod_in L hin.1 hin.2]
      obtain ⟨w, hw | hw⟩ := hall p hin.1 hin.2 <;> rw [hw] at hv ⊢ <;> simpa using hv
    · rwa [publish_prod_out L hin]
  | claim n => exact hv
  | retract r _ _ => exact hv
  | take q w _ _ => exact hv
  | complete a n _ => exact hv

/-- Published values stay published. -/
theorem Step.published (hw : L.WF) (h : Step t L L') {p : ℕ} {v : α}
    (hv : L.prod p = .published v) : L'.prod p = .published v := by
  have hlt : p < L.ppos := hw.reserved_lt (by simp [hv])
  cases h with
  | skip => exact hv
  | reserve vs => rwa [reserve_prod_old L t vs hlt]
  | copy q w hq =>
    have hpq : p ≠ q := by
      rintro rfl
      simp [hq] at hv
    rwa [copy_prod, update_of_ne hpq]
  | publish a n hall =>
    by_cases hin : a ≤ p ∧ p < a + n
    · rw [publish_prod_in L hin.1 hin.2, hv]
      rfl
    · rwa [publish_prod_out L hin]
  | claim n => exact hv
  | retract r _ _ => exact hv
  | take q w _ _ => exact hv
  | complete a n _ => exact hv

/-- **One step keeps the ledger well formed.** -/
theorem Step.wf (hw : L.WF) (h : Step t L L') : L'.WF := by
  cases h with
  | skip => exact hw
  | reserve vs =>
    refine ⟨fun p => ?_, hw.cons_free, fun p u hp => ?_, fun p hp => ?_⟩
    · by_cases h1 : p < L.ppos
      · rw [reserve_prod_old L t vs h1, hw.prod_free, reserve_ppos]
        omega
      · by_cases h2 : p < L.ppos + vs.length
        · obtain ⟨j, rfl⟩ : ∃ j, p = L.ppos + j := ⟨p - L.ppos, by omega⟩
          rw [reserve_prod_new L t vs (List.getElem?_eq_getElem (by omega)), reserve_ppos]
          simp only [reduceCtorEq, false_iff]
          omega
        · rw [reserve_prod_beyond L t vs (by omega), hw.prod_free, reserve_ppos]
          omega
    · obtain ⟨v, hv⟩ := hw.taken_published p u hp
      exact ⟨v, by rw [reserve_prod_old L t vs (hw.reserved_lt (by simp [hv]))]; exact hv⟩
    · obtain ⟨v, hv⟩ := hw.done_published p hp
      exact ⟨v, by rw [reserve_prod_old L t vs (hw.reserved_lt (by simp [hv]))]; exact hv⟩
  | copy q w hq =>
    have hne : ∀ p v, L.prod p = .published v → (L.copy t q w).prod p = .published v :=
      fun p v hv => Step.published hw (.copy q w hq) hv
    refine ⟨fun p => ?_, hw.cons_free, fun p u hp => ?_, fun p hp => ?_⟩
    · by_cases hpq : p = q
      · subst hpq
        have hlt := hw.reserved_lt (p := p) (by rw [hq]; simp)
        simp only [copy_prod, update_self, copy_ppos, reduceCtorEq, false_iff]
        omega
      · simp only [copy_prod, update_of_ne hpq, copy_ppos]
        exact hw.prod_free p
    · obtain ⟨v, hv⟩ := hw.taken_published p u hp
      exact ⟨v, hne p v hv⟩
    · obtain ⟨v, hv⟩ := hw.done_published p hp
      exact ⟨v, hne p v hv⟩
  | publish a n hall =>
    have hne : ∀ p v, L.prod p = .published v → (L.publish a n).prod p = .published v :=
      fun p v hv => Step.published hw (.publish a n hall) hv
    refine ⟨fun p => ?_, hw.cons_free, fun p u hp => ?_, fun p hp => ?_⟩
    · by_cases hin : a ≤ p ∧ p < a + n
      · rw [publish_prod_in L hin.1 hin.2, publish_ppos, ← hw.prod_free]
        obtain ⟨v, hv | hv⟩ := hall p hin.1 hin.2 <;> rw [hv] <;> simp
      · rw [publish_prod_out L hin]
        exact hw.prod_free p
    · obtain ⟨v, hv⟩ := hw.taken_published p u hp
      exact ⟨v, hne p v hv⟩
    · obtain ⟨v, hv⟩ := hw.done_published p hp
      exact ⟨v, hne p v hv⟩
  | claim n =>
    refine ⟨hw.prod_free, fun p => ?_, fun p u hp => ?_, fun p hp => ?_⟩
    · by_cases hin : L.cpos ≤ p ∧ p < L.cpos + n
      · rw [claim_cons_in L t hin.1 hin.2, claim_cpos]
        simp only [reduceCtorEq, false_iff]
        omega
      · rw [claim_cons_out L t hin, hw.cons_free, claim_cpos]
        omega
    · by_cases hin : L.cpos ≤ p ∧ p < L.cpos + n
      · simp [claim_cons_in L t hin.1 hin.2] at hp
      · rw [claim_cons_out L t hin] at hp
        exact hw.taken_published p u hp
    · by_cases hin : L.cpos ≤ p ∧ p < L.cpos + n
      · simp [claim_cons_in L t hin.1 hin.2] at hp
      · rw [claim_cons_out L t hin] at hp
        exact hw.done_published p hp
  | retract r hr hall =>
    refine ⟨hw.prod_free, fun p => ?_, fun p u hp => ?_, fun p hp => ?_⟩
    · by_cases hin : r ≤ p
      · rw [retract_cons_in L hin]
        simpa using hin
      · rw [retract_cons_out L (by omega), hw.cons_free, retract_cpos]
        omega
    · by_cases hin : r ≤ p
      · simp [retract_cons_in L hin] at hp
      · rw [retract_cons_out L (by omega)] at hp
        exact hw.taken_published p u hp
    · by_cases hin : r ≤ p
      · simp [retract_cons_in L hin] at hp
      · rw [retract_cons_out L (by omega)] at hp
        exact hw.done_published p hp
  | take q w hq hv =>
    refine ⟨hw.prod_free, fun p => ?_, fun p u hp => ?_, fun p hp => ?_⟩
    · by_cases hpq : p = q
      · subst hpq
        have hlt := hw.claimed_lt (p := p) (by rw [hq]; simp)
        simp only [take_cons, update_self, take_cpos, reduceCtorEq, false_iff]
        omega
      · simp only [take_cons, update_of_ne hpq, take_cpos]
        exact hw.cons_free p
    · by_cases hpq : p = q
      · subst hpq
        exact ⟨w, hv⟩
      · rw [take_cons, update_of_ne hpq] at hp
        exact hw.taken_published p u hp
    · by_cases hpq : p = q
      · subst hpq
        exact ⟨w, hv⟩
      · rw [take_cons, update_of_ne hpq] at hp
        exact hw.done_published p hp
  | complete a n hall =>
    refine ⟨hw.prod_free, fun p => ?_, fun p u hp => ?_, fun p hp => ?_⟩
    · by_cases hin : a ≤ p ∧ p < a + n
      · have hlt := hw.claimed_lt (p := p) (by rw [hall p hin.1 hin.2]; simp)
        rw [complete_cons_in L hin.1 hin.2, complete_cpos]
        simp only [reduceCtorEq, false_iff]
        omega
      · rw [complete_cons_out L hin]
        exact hw.cons_free p
    · by_cases hin : a ≤ p ∧ p < a + n
      · simp [complete_cons_in L hin.1 hin.2] at hp
      · rw [complete_cons_out L hin] at hp
        exact hw.taken_published p u hp
    · by_cases hin : a ≤ p ∧ p < a + n
      · exact hw.taken_published p t (hall p hin.1 hin.2)
      · rw [complete_cons_out L hin] at hp
        exact hw.done_published p hp

/-- A step that writes the cells of `u` nowhere adds nothing to what it owes. -/
theorem Pending.of_cells {a n : ℕ} (h : L.Pending u a n)
    (hp : ∀ p, L'.prod p = L.prod p ∨ ∀ v, L'.prod p ≠ .reserved u v ∧ L'.prod p ≠ .copied u v) :
    L'.Pending u a n := by
  intro p v hv
  rcases hp p with heq | hne
  · rw [heq] at hv
    exact h p v hv
  · rcases hv with hv | hv
    · exact absurd hv (hne v).1
    · exact absurd hv (hne v).2

/-- A thread with an empty window owes nothing. -/
theorem Pending.none {a b m : ℕ} (h : L.Pending t a 0) : L.Pending t b m := by
  intro p v hv
  have := h p v hv
  omega

/-- **One step of `t` leaves the cells of every other thread alone.** -/
theorem Step.frame (hw : L.WF) (h : Step t L L') (hu : u ≠ t) : Frame u L L' := by
  have hfree : ∀ p, L.prod p ≠ .free → p < L.ppos := fun p hp => hw.reserved_lt hp
  have hcfree : ∀ p, L.cons p ≠ .free → p < L.cpos := fun p hp => hw.claimed_lt hp
  have hut : ∀ {v w : α}, (PCell.reserved t v : PCell ι α) ≠ .reserved u w := by
    intro v w hc
    injection hc with hc
    exact hu hc.symm
  have hut' : ∀ {v w : α}, (PCell.copied t v : PCell ι α) ≠ .copied u w := by
    intro v w hc
    injection hc with hc
    exact hu hc.symm
  cases h with
  | skip => exact Frame.refl u L
  | reserve vs =>
    refine ⟨fun p v hp => ?_, fun p v hp => ?_, fun a n hp => hp.of_cells fun p => ?_,
      fun p v hp => ?_, fun _ h => h, fun _ h => h, fun _ h => h, by simp⟩
    · rwa [reserve_prod_old L t vs (hfree p (by simp [hp]))]
    · rwa [reserve_prod_old L t vs (hfree p (by simp [hp]))]
    · rcases hw.reserve_prod t vs p with heq | ⟨_, v, hv⟩
      · exact Or.inl heq
      · refine Or.inr fun w => ?_
        rw [hv]
        exact ⟨hut, by simp⟩
    · rwa [reserve_prod_old L t vs (hfree p (by simp [hp]))]
  | copy q w hq =>
    have hne : ∀ p, L.prod p ≠ .reserved t w → (L.copy t q w).prod p = L.prod p := by
      intro p hp
      rw [copy_prod, update_of_ne]
      rintro rfl
      exact hp hq
    refine ⟨fun p v hp => ?_, fun p v hp => ?_, fun a n hp => hp.of_cells fun p => ?_,
      fun p v hp => ?_, fun _ h => h, fun _ h => h, fun _ h => h, le_refl _⟩
    · rwa [hne p (by rw [hp]; exact hut.symm)]
    · rwa [hne p (by rw [hp]; simp)]
    · by_cases hpq : p = q
      · subst hpq
        refine Or.inr fun v => ?_
        rw [copy_prod, update_self]
        exact ⟨by simp, hut'⟩
      · rw [copy_prod, update_of_ne hpq]
        exact Or.inl rfl
    · rwa [hne p (by rw [hp]; simp)]
  | publish a n hall =>
    have hcell : ∀ p, (a ≤ p ∧ p < a + n) → ∀ v,
        L.prod p ≠ .reserved u v ∧ L.prod p ≠ .copied u v := by
      intro p hin v
      obtain ⟨w, hw | hw⟩ := hall p hin.1 hin.2 <;> rw [hw]
      · exact ⟨by simp, hut'⟩
      · exact ⟨hut, by simp⟩
    have hpub : ∀ p v, L.prod p = .published v → (L.publish a n).prod p = .published v :=
      fun p v hv => Step.published hw (.publish a n hall) hv
    refine ⟨fun p v hp => ?_, fun p v hp => ?_, fun b m hp => hp.of_cells fun p => ?_,
      hpub, fun _ h => h, fun _ h => h, fun _ h => h, le_refl _⟩
    · rwa [publish_prod_out L fun hin => (hcell p hin v).1 hp]
    · rwa [publish_prod_out L fun hin => (hcell p hin v).2 hp]
    · by_cases hin : a ≤ p ∧ p < a + n
      · refine Or.inr fun v => ?_
        obtain ⟨w, hw⟩ := hall p hin.1 hin.2
        rw [publish_prod_in L hin.1 hin.2]
        rcases hw with hw | hw <;> rw [hw] <;> simp
      · exact Or.inl (publish_prod_out L hin)
  | claim n =>
    refine ⟨fun _ _ h => h, fun _ _ h => h, fun _ _ h => h, fun _ _ h => h, fun p hp => ?_,
      fun p hp => ?_, fun p hp => ?_, le_refl _⟩ <;>
    · have := hcfree p (by simp [hp])
      rwa [claim_cons_out L t (by omega)]
  | retract r hr hall =>
    refine ⟨fun _ _ h => h, fun _ _ h => h, fun _ _ h => h, fun _ _ h => h, fun p hp => ?_,
      fun p hp => ?_, fun p hp => ?_, le_refl _⟩ <;>
    · have hlt := hcfree p (by simp [hp])
      by_cases hin : r ≤ p
      · have := hall p hin hlt
        rw [this] at hp
        simp_all
      · rwa [retract_cons_out L (by omega)]
  | take q w hq hv =>
    refine ⟨fun _ _ h => h, fun _ _ h => h, fun _ _ h => h, fun _ _ h => h, fun p hp => ?_,
      fun p hp => ?_, fun p hp => ?_, le_refl _⟩ <;>
    · rw [take_cons, update_of_ne]
      · exact hp
      · rintro rfl
        rw [hq] at hp
        simp_all
  | complete a n hall =>
    refine ⟨fun _ _ h => h, fun _ _ h => h, fun _ _ h => h, fun _ _ h => h, fun p hp => ?_,
      fun p hp => ?_, fun p hp => ?_, le_refl _⟩ <;>
    · by_cases hin : a ≤ p ∧ p < a + n
      · have := hall p hin.1 hin.2
        rw [this] at hp
        simp_all
      · rwa [complete_cons_out L hin]

/-! ## Windows of one thread -/

/-- The values `vs` are published from position `p` on. -/
def Sent (L : Ledger ι α) (p : ℕ) (vs : List α) : Prop :=
  ∀ j x, vs[j]? = some x → L.prod (p + j) = .published x

/-- `t` still has to publish the values `vs` from position `p` on. -/
def Owes (L : Ledger ι α) (t : ι) (p : ℕ) (vs : List α) : Prop :=
  ∀ j x, vs[j]? = some x → L.prod (p + j) = .reserved t x

/-- `t` has claimed `[p, p + n)` and not yet taken anything there. -/
def Holds (L : Ledger ι α) (t : ι) (p n : ℕ) : Prop :=
  ∀ j, j < n → L.cons (p + j) = .claimed t

/-- `t` has taken `[p, p + n)` and not yet completed it. -/
def Taken (L : Ledger ι α) (t : ι) (p n : ℕ) : Prop :=
  ∀ j, j < n → L.cons (p + j) = .taken t

/-- Everything `t` has claimed but not completed lies in `[a, a + n)`. -/
def Covers (L : Ledger ι α) (t : ι) (a n : ℕ) : Prop :=
  ∀ p, (L.cons p = .claimed t ∨ L.cons p = .taken t) → a ≤ p ∧ p < a + n

section Windows

variable {p n : ℕ} {vs : List α}

/-- One step of `t` gives no other thread a new cell. -/
theorem Step.covers {a n : ℕ} (h : Step t L L') (hu : u ≠ t) (hc : L.Covers u a n) :
    L'.Covers u a n := by
  intro p hp
  apply hc p
  cases h with
  | skip => exact hp
  | reserve vs => exact hp
  | copy q w hq => exact hp
  | publish b m hall => exact hp
  | claim m =>
    by_cases hin : L.cpos ≤ p ∧ p < L.cpos + m
    · rw [claim_cons_in L t hin.1 hin.2] at hp
      simp [Ne.symm hu] at hp
    · rwa [claim_cons_out L t hin] at hp
  | retract r hr hall =>
    by_cases hin : r ≤ p
    · rw [retract_cons_in L hin] at hp
      simp at hp
    · rwa [retract_cons_out L (by omega)] at hp
  | take q w hq hv =>
    by_cases hpq : p = q
    · subst hpq
      rw [take_cons, update_self] at hp
      simp [Ne.symm hu] at hp
    · rwa [take_cons, update_of_ne hpq] at hp
  | complete b m hall =>
    by_cases hin : b ≤ p ∧ p < b + m
    · rw [complete_cons_in L hin.1 hin.2] at hp
      simp at hp
    · rwa [complete_cons_out L hin] at hp

/-- A thread with an empty window has claimed nothing. -/
theorem Covers.none {a b m : ℕ} (h : L.Covers t a 0) : L.Covers t b m := by
  intro p hp
  have := h p hp
  omega

/-- The first claim of a thread. -/
theorem Covers.claim {a : ℕ} (h : L.Covers t a 0) (n : ℕ) : (L.claim t n).Covers t L.cpos n := by
  intro p hp
  by_cases hin : L.cpos ≤ p ∧ p < L.cpos + n
  · exact hin
  · rw [claim_cons_out L t hin] at hp
    have := h p hp
    omega

/-- A claim right behind the window. -/
theorem Covers.extend {a m : ℕ} (h : L.Covers t a m) (ham : a + m = L.cpos) (n : ℕ) :
    (L.claim t n).Covers t a (m + n) := by
  intro p hp
  by_cases hin : L.cpos ≤ p ∧ p < L.cpos + n
  · omega
  · rw [claim_cons_out L t hin] at hp
    have := h p hp
    omega

/-- Taking keeps the window of the thread. -/
theorem Covers.take {a m q : ℕ} (h : L.Covers t a m) (hq : L.cons q = .claimed t) :
    (L.take t q).Covers t a m := by
  intro p hp
  by_cases hpq : p = q
  · subst hpq
    exact h p (Or.inl hq)
  · rw [take_cons, update_of_ne hpq] at hp
    exact h p hp

/-- Completing the front of the window. -/
theorem Covers.complete {a m k : ℕ} (h : L.Covers t a (k + m)) :
    (L.complete a k).Covers t (a + k) m := by
  intro p hp
  by_cases hin : a ≤ p ∧ p < a + k
  · rw [complete_cons_in L hin.1 hin.2] at hp
    simp at hp
  · rw [complete_cons_out L hin] at hp
    have := h p hp
    omega

/-- What has been published stays published. -/
theorem Frame.sent (h : Frame u L L') (hs : L.Sent p vs) : L'.Sent p vs :=
  fun j x hj => h.published _ x (hs j x hj)

/-- What a thread owes is its own. -/
theorem Frame.owes (h : Frame u L L') (ho : L.Owes u p vs) : L'.Owes u p vs :=
  fun j x hj => h.reserved _ x (ho j x hj)

/-- What a thread has claimed is its own. -/
theorem Frame.holds (h : Frame u L L') (hh : L.Holds u p n) : L'.Holds u p n :=
  fun j hj => h.claimed _ (hh j hj)

/-- What a thread has taken is its own. -/
theorem Frame.tookAll (h : Frame u L L') (ht : L.Taken u p n) : L'.Taken u p n :=
  fun j hj => h.taken _ (ht j hj)

/-- Two changes by others are one. -/
theorem Frame.trans {L'' : Ledger ι α} (h : Frame u L L') (h' : Frame u L' L'') :
    Frame u L L'' :=
  ⟨fun p v hp => h'.reserved p v (h.reserved p v hp),
    fun p v hp => h'.copied p v (h.copied p v hp),
    fun a n hp => h'.pending a n (h.pending a n hp),
    fun p v hp => h'.published p v (h.published p v hp),
    fun p hp => h'.claimed p (h.claimed p hp), fun p hp => h'.taken p (h.taken p hp),
    fun p hp => h'.done p (h.done p hp), h.ppos.trans h'.ppos⟩

/-- A fresh reservation is owed. -/
theorem owes_reserve (L : Ledger ι α) (t : ι) (vs : List α) :
    (L.reserve t vs).Owes t L.ppos vs :=
  fun _ _ hj => reserve_prod_new L t vs hj

/-- A fresh claim is held. -/
theorem holds_claim (L : Ledger ι α) (t : ι) (n : ℕ) : (L.claim t n).Holds t L.cpos n :=
  fun _ hj => claim_cons_in L t (by omega) (by omega)

/-- A claim starts where the last one ended. -/
theorem Holds.claim {m : ℕ} (h : L.Holds t p m) (hpm : p + m = L.cpos) (n : ℕ) :
    (L.claim t n).Holds t p (m + n) := by
  intro j hj
  by_cases hlt : j < m
  · rw [claim_cons_out L t (by omega)]
    exact h j hlt
  · exact claim_cons_in L t (by omega) (by omega)

theorem Taken.cell {q : ℕ} (h : L.Taken t p n) (h1 : p ≤ q) (h2 : q < p + n) :
    L.cons q = .taken t := by
  have := h (q - p) (by omega)
  rwa [Nat.add_sub_cancel' h1] at this

/-- Taking the first position of a claimed window. -/
theorem Holds.take (h : L.Holds t p n) : (L.take t p).Holds t (p + 1) (n - 1) := by
  intro j hj
  rw [take_cons, update_of_ne (by omega), Nat.add_assoc]
  exact h (1 + j) (by omega)

/-- Taking the position behind a taken window. -/
theorem Taken.take (h : L.Taken t p n) : (L.take t (p + n)).Taken t p (n + 1) := by
  intro j hj
  by_cases hjn : j = n
  · subst hjn
    rw [take_cons, update_self]
  · rw [take_cons, update_of_ne (by omega)]
    exact h j (by omega)

end Windows

end Ledger
