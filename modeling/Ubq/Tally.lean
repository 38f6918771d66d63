/-
# Counting the marked positions of a window

`tally f a n` is the number of positions in the window `[a, a + n)` that `f`
marks.  A counter that is only ever incremented by the number of newly marked
positions is a tally, and the two facts the block protocols rest on are
`tally_eq_iff` (a full counter means that every position is marked) and
`tally_eq_prefix` (a counter that has caught up with a bound on the marked
positions marks exactly the positions below the bound).

The last section is about a total that is kept in shares, one for each index of
`[0, n)`: a change of one share changes the total by as much.
-/
import Mathlib.Algebra.BigOperators.Group.Finset.Piecewise
import Mathlib.Data.Finset.Card
import Mathlib.Order.Interval.Finset.Nat

/-- The number of positions in `[a, a + n)` marked by `f`. -/
def tally (f : ℕ → Bool) (a n : ℕ) : ℕ :=
  ((Finset.Ico a (a + n)).filter (fun p => f p = true)).card

variable {f g : ℕ → Bool} {a n m : ℕ}

theorem tally_le (f : ℕ → Bool) (a n : ℕ) : tally f a n ≤ n := by
  calc ((Finset.Ico a (a + n)).filter (fun p => f p = true)).card
      ≤ (Finset.Ico a (a + n)).card := Finset.card_filter_le _ _
    _ = n := by simp

theorem tally_congr (h : ∀ p, a ≤ p → p < a + n → f p = g p) : tally f a n = tally g a n := by
  unfold tally
  congr 1
  apply Finset.filter_congr
  intro p hp
  rw [Finset.mem_Ico] at hp
  rw [h p hp.1 hp.2]

theorem tally_mono
    (h : ∀ p, a ≤ p → p < a + n → f p = true → g p = true) : tally f a n ≤ tally g a n := by
  apply Finset.card_le_card
  intro p hp
  rw [Finset.mem_filter, Finset.mem_Ico] at hp ⊢
  exact ⟨hp.1, h p hp.1.1 hp.1.2 hp.2⟩

theorem tally_eq_zero (h : ∀ p, a ≤ p → p < a + n → f p = false) : tally f a n = 0 := by
  unfold tally
  rw [Finset.card_eq_zero, Finset.filter_eq_empty_iff]
  intro p hp
  rw [Finset.mem_Ico] at hp
  rw [h p hp.1 hp.2]
  simp

/-- A full tally marks the whole window. -/
theorem tally_eq_iff : tally f a n = n ↔ ∀ p, a ≤ p → p < a + n → f p = true := by
  constructor
  · intro h p hpa hpn
    have hcard : ((Finset.Ico a (a + n)).filter (fun p => f p = true)).card
        = (Finset.Ico a (a + n)).card := by
      rw [← tally, h]
      simp
    exact Finset.card_filter_eq_iff.mp hcard p (Finset.mem_Ico.mpr ⟨hpa, hpn⟩)
  · intro h
    unfold tally
    rw [Finset.filter_true_of_mem]
    · simp
    · intro p hp
      rw [Finset.mem_Ico] at hp
      exact h p hp.1 hp.2

/-- Marking a whole unmarked part `[b, b + m)` of the window adds `m`. -/
theorem tally_mark {a n b m : ℕ} (hab : a ≤ b) (hbn : b + m ≤ a + n)
    (hold : ∀ p, b ≤ p → p < b + m → f p = false)
    (hnew : ∀ p, b ≤ p → p < b + m → g p = true)
    (hrest : ∀ p, a ≤ p → p < a + n → ¬ (b ≤ p ∧ p < b + m) → g p = f p) :
    tally g a n = tally f a n + m := by
  unfold tally
  have hsplit : (Finset.Ico a (a + n)).filter (fun p => g p = true)
      = (Finset.Ico a (a + n)).filter (fun p => f p = true) ∪ Finset.Ico b (b + m) := by
    ext p
    simp only [Finset.mem_filter, Finset.mem_Ico, Finset.mem_union]
    constructor
    · rintro ⟨hp, hg⟩
      by_cases hin : b ≤ p ∧ p < b + m
      · exact Or.inr hin
      · exact Or.inl ⟨hp, by rw [← hrest p hp.1 hp.2 hin]; exact hg⟩
    · rintro (⟨hp, hf⟩ | hin)
      · refine ⟨hp, ?_⟩
        by_cases hin : b ≤ p ∧ p < b + m
        · exact hnew p hin.1 hin.2
        · rw [hrest p hp.1 hp.2 hin]; exact hf
      · exact ⟨⟨by omega, by omega⟩, hnew p hin.1 hin.2⟩
  rw [hsplit, Finset.card_union_of_disjoint]
  · simp
  · rw [Finset.disjoint_left]
    intro p hp hin
    rw [Finset.mem_filter] at hp
    rw [Finset.mem_Ico] at hin
    rw [hold p hin.1 hin.2] at hp
    simp at hp

/-- One position more makes a larger tally. -/
theorem tally_lt {a n p : ℕ} (hpa : a ≤ p) (hpn : p < a + n)
    (hfg : ∀ q, a ≤ q → q < a + n → f q = true → g q = true) (hf : f p = false)
    (hg : g p = true) : tally f a n < tally g a n := by
  apply Finset.card_lt_card
  rw [Finset.ssubset_iff_of_subset]
  · refine ⟨p, ?_, ?_⟩
    · simp [hpa, hpn, hg]
    · simp [hf]
  · intro q hq
    rw [Finset.mem_filter, Finset.mem_Ico] at hq ⊢
    exact ⟨hq.1, hfg q hq.1.1 hq.1.2 hq.2⟩

/-- Positions beyond the last marked one do not count. -/
theorem tally_cut (hmn : m ≤ n)
    (hlt : ∀ p, a ≤ p → p < a + n → f p = true → p < a + m) : tally f a n = tally f a m := by
  unfold tally
  congr 1
  ext p
  simp only [Finset.mem_filter, Finset.mem_Ico]
  constructor
  · rintro ⟨hp, hf⟩
    exact ⟨⟨hp.1, hlt p hp.1 hp.2 hf⟩, hf⟩
  · rintro ⟨hp, hf⟩
    exact ⟨⟨hp.1, by omega⟩, hf⟩

/-- If only positions below `a + m` are marked and `m` of them are, the marked
positions are exactly `[a, a + m)`. -/
theorem tally_eq_prefix (hmn : m ≤ n)
    (hlt : ∀ p, a ≤ p → p < a + n → f p = true → p < a + m) (hm : m ≤ tally f a n) :
    ∀ p, a ≤ p → p < a + m → f p = true := by
  rw [tally_cut hmn hlt] at hm
  exact tally_eq_iff.mp (le_antisymm (tally_le f a m) hm)

/-- The count of a marked prefix. -/
theorem tally_below (hmn : m ≤ n)
    (h : ∀ p, a ≤ p → p < a + n → (f p = true ↔ p < a + m)) : tally f a n = m := by
  rw [tally_cut hmn fun p h1 h2 => (h p h1 h2).mp]
  exact tally_eq_iff.mpr fun p h1 h2 => (h p h1 (by omega)).mpr h2

/-- If the first positions, as many as are marked, are marked, no other one is. -/
theorem lt_of_tally_prefix
    (h : ∀ p, a ≤ p → p < a + tally f a n → f p = true) {p : ℕ} (hpa : a ≤ p) (hpn : p < a + n)
    (hp : f p = true) : p < a + tally f a n := by
  by_contra hge
  have hcount : tally (fun q => decide (q < a + tally f a n)) a n = tally f a n :=
    tally_below (tally_le f a n) fun q _ _ => by simp
  have hmore := tally_lt (f := fun q => decide (q < a + tally f a n)) hpa hpn
    (fun q hq _ hlt => h q hq (by simpa using hlt)) (by simpa using hge) hp
  omega

/-! ## Totals kept in shares -/

/-- A share that grows by `a` makes the total grow by `a`. -/
theorem sum_update_range {M : Type*} [AddCommMonoid M] {f : ℕ → M} {n k : ℕ} {a b : M}
    (hk : k < n) (hb : b = f k + a) :
    ∑ x ∈ Finset.range n, Function.update f k b x = ∑ x ∈ Finset.range n, f x + a := by
  have hmem : k ∈ Finset.range n := Finset.mem_range.mpr hk
  rw [Finset.sum_update_of_mem hmem, Finset.sum_eq_add_sum_sdiff_singleton_of_mem hmem f, hb,
    add_right_comm]
