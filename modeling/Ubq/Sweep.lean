/-
# Taking from a family of queues in order

A family of FIFO queues is visited in the order of a list, and each queue gives up to
what is still wanted.  `sweep` is the run of these visits; `sweep_spec` says that it
takes a prefix of each queue and all it can, `sweep_one` that a sweep for one element
takes it from the first queue that is not empty.
-/
import Mathlib.Data.List.Basic
import Mathlib.Data.List.Induction
import Mathlib.Logic.Function.Basic
import Mathlib.Order.Basic

open Function

section Sweep

variable {α β : Type*} [DecidableEq α]

/-- Visit queue `i`, with the elements taken so far and the queues as they are. -/
def sweepStep (size : ℕ) (z : List β × (α → List β)) (i : α) : List β × (α → List β) :=
  (z.1 ++ (z.2 i).take (size - z.1.length),
    update z.2 i ((z.2 i).drop (size - z.1.length)))

/-- Visit the queues of a list: the elements taken and the queues afterwards. -/
def sweep (size : ℕ) (q : α → List β) (is : List α) : List β × (α → List β) :=
  is.foldl (sweepStep size) ([], q)

variable {size : ℕ} {q : α → List β}

theorem sweep_snoc (size : ℕ) (q : α → List β) (is : List α) (i : α) :
    sweep size q (is ++ [i]) = sweepStep size (sweep size q is) i := by
  unfold sweep
  rw [List.foldl_append]
  rfl

theorem sweepStep_full {z : List β × (α → List β)} (h : z.1.length = size) (i : α) :
    sweepStep size z i = z := by
  unfold sweepStep
  rw [h, Nat.sub_self, List.take_zero, List.append_nil, List.drop_zero, update_eq_self]

/-- Once enough is taken the other queues are left alone. -/
theorem sweep_full {is : List α} (h : (sweep size q is).1.length = size) (js : List α) :
    sweep size q (is ++ js) = sweep size q is := by
  induction js using List.reverseRecOn with
  | nil => rw [List.append_nil]
  | append_singleton js j ih =>
    rw [← List.append_assoc, sweep_snoc, ih]
    exact sweepStep_full h j

/-- **A sweep takes a prefix of each queue**, in order, and as much as it can. -/
theorem sweep_spec (size : ℕ) (q : α → List β) {is : List α} (hnd : is.Nodup) :
    ∃ k : α → ℕ, (sweep size q is).1 = is.flatMap (fun i => (q i).take (k i)) ∧
      (∀ i, (sweep size q is).2 i = (q i).drop (k i)) ∧ (∀ i, i ∉ is → k i = 0) ∧
      (sweep size q is).1.length = min size (is.flatMap q).length := by
  induction is using List.reverseRecOn with
  | nil => exact ⟨fun _ => 0, rfl, fun i => rfl, fun _ _ => rfl, by simp [sweep]⟩
  | append_singleton is i ih =>
    obtain ⟨hnd', _, hdisj⟩ := List.nodup_append.mp hnd
    have hi : i ∉ is := fun hc => hdisj i hc i (by simp) rfl
    obtain ⟨k, htaken, hleft, hout, hlen⟩ := ih hnd'
    have hqi : (sweep size q is).2 i = q i := by
      rw [hleft, hout i hi, List.drop_zero]
    have hsame : ∀ m, is.flatMap (fun j => (q j).take (update k i m j)) =
        is.flatMap fun j => (q j).take (k j) := by
      intro m
      apply List.flatMap_congr
      intro j hj
      have hji : j ≠ i := fun hc => hi (hc ▸ hj)
      rw [update_of_ne hji]
    refine ⟨update k i (size - (sweep size q is).1.length), ?_, fun j => ?_,
      fun j hj => ?_, ?_⟩
    · rw [sweep_snoc, sweepStep, hqi, List.flatMap_append, hsame, ← htaken]
      simp
    · rw [sweep_snoc, sweepStep, hqi]
      by_cases hji : j = i
      · subst hji
        simp
      · simp only [update_of_ne hji]
        exact hleft j
    · rw [List.mem_append, not_or, List.mem_singleton] at hj
      rw [update_of_ne hj.2]
      exact hout j hj.1
    · rw [sweep_snoc, sweepStep, hqi, List.length_append, List.length_take, hlen,
        List.flatMap_append, List.length_append]
      simp only [List.flatMap_cons, List.flatMap_nil, List.append_nil]
      omega

/-- A sweep for one element. -/
theorem sweep_one (q : α → List β) (is : List α) :
    ((∀ i ∈ is, q i = []) ∧ sweep 1 q is = ([], q)) ∨
    ∃ pre i post v rest, is = pre ++ i :: post ∧ (∀ j ∈ pre, q j = []) ∧ q i = v :: rest ∧
      sweep 1 q is = ([v], update q i rest) := by
  induction is using List.reverseRecOn with
  | nil => exact .inl ⟨by simp, rfl⟩
  | append_singleton is i ih =>
    rcases ih with ⟨hempty, hsweep⟩ | ⟨pre, j, post, v, rest, rfl, hpre, hj, hsweep⟩
    · cases hq : q i with
      | nil =>
        refine .inl ⟨fun j hj => ?_, ?_⟩
        · rcases List.mem_append.mp hj with hj | hj
          · exact hempty j hj
          · rw [List.mem_singleton.mp hj, hq]
        · rw [sweep_snoc, hsweep]
          simp only [sweepStep, hq, List.take_nil, List.drop_nil, List.append_nil]
          rw [← hq, update_eq_self]
      | cons v rest =>
        refine .inr ⟨is, i, [], v, rest, rfl, hempty, hq, ?_⟩
        rw [sweep_snoc, hsweep]
        simp [sweepStep, hq]
    · refine .inr ⟨pre, j, post ++ [i], v, rest, by simp, hpre, hj, ?_⟩
      rw [sweep_full (by rw [hsweep]; rfl), hsweep]

end Sweep
