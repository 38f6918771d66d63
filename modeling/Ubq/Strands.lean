/-
# Disjoint intrusive lists

A family of null-terminated lists over one memory of `next` links.  `Strands` says that
they are linked as listed, share no block and hold every live block; the operations on
links are given by what they do to the family.  The order of the family is irrelevant
(`Strands.perm`), so each lemma has the lists it is about in front and the others as a
frame behind them.

The lists are held through handles, such as a pair of end pointers with a count.  `Owned`
says that the handles describe the lists of the family one for one.
-/
import Ubq.Chain
import Mathlib.Data.List.Perm.Basic

/-- Disjoint null-terminated lists of all live blocks. -/
structure Strands (nxt : Addr → Option Addr) (live : Addr → Bool) (ls : List (List Addr)) :
    Prop where
  nodup : ls.flatten.Nodup
  path : ∀ l ∈ ls, LinkPath nxt l.head? l none
  live : ∀ a, live a = true ↔ a ∈ ls.flatten

namespace Strands

variable {nxt nxt' : Addr → Option Addr} {live live' : Addr → Bool} {ls ls' : List (List Addr)}
  {xs ys : List Addr} {z : Addr}

theorem perm (h : Strands nxt live ls) (hp : ls.Perm ls') : Strands nxt live ls' :=
  ⟨hp.flatten.nodup_iff.mp h.nodup, fun l hl => h.path l (hp.mem_iff.mpr hl),
    fun a => (h.live a).trans hp.flatten.mem_iff⟩

theorem nil (h : Strands nxt live ls) : Strands nxt live ([] :: ls) := by
  refine ⟨h.nodup, fun l hl => ?_, h.live⟩
  rcases List.mem_cons.mp hl with rfl | hl
  · rfl
  · exact h.path l hl

theorem of_nil (h : Strands nxt live ([] :: ls)) : Strands nxt live ls :=
  ⟨h.nodup, fun l hl => h.path l (List.mem_cons_of_mem _ hl), h.live⟩

/-- The last block of `xs` gets `ys` as its successor. -/
theorem join (h : Strands nxt live (xs :: ys :: ls)) (hz : xs.getLast? = some z) :
    Strands (Function.update nxt z ys.head?) live ((xs ++ ys) :: ls) := by
  have hnd : (xs ++ (ys ++ ls.flatten)).Nodup := h.nodup
  have hzx : z ∈ xs := List.mem_of_getLast? hz
  have hflat : ((xs ++ ys) :: ls).flatten = xs ++ (ys ++ ls.flatten) := by simp
  have hdisj := List.nodup_append'.mp hnd
  refine ⟨hflat ▸ hnd, fun l hl => ?_, fun a => hflat ▸ h.live a⟩
  rcases List.mem_cons.mp hl with rfl | hl
  · rw [← List.append_assoc] at hnd
    exact path_join (List.nodup_append'.mp hnd).1 hz (h.path _ (by simp)) (h.path _ (by simp))
  · refine path_update (fun hc => ?_) (h.path _ (by simp [hl])) _
    exact hdisj.2.2 hzx (List.mem_append_right _ (List.mem_flatten_of_mem hl hc))

/-- A list is cut behind its block `z`. -/
theorem sever (h : Strands nxt live ((xs ++ ys) :: ls)) (hz : xs.getLast? = some z) :
    Strands (Function.update nxt z none) live (xs :: ys :: ls) := by
  have hnd : ((xs ++ ys) ++ ls.flatten).Nodup := h.nodup
  have hzx : z ∈ xs := List.mem_of_getLast? hz
  have hflat : (xs :: ys :: ls).flatten = (xs ++ ys) ++ ls.flatten := by simp
  have hdisj := List.nodup_append'.mp hnd
  refine ⟨hflat ▸ hnd, fun l hl => ?_, fun a => hflat ▸ h.live a⟩
  obtain ⟨hxs, hys⟩ := path_sever hdisj.1 hz (h.path _ (List.mem_cons_self ..))
  simp only [List.mem_cons] at hl
  rcases hl with rfl | rfl | hl
  · exact hxs
  · exact hys
  · refine path_update (fun hc => ?_) (h.path _ (by simp [hl])) _
    exact hdisj.2.2 (List.mem_append_left _ hzx) (List.mem_flatten_of_mem hl hc)

/-- New blocks come as a list of their own. -/
theorem fresh (h : Strands nxt live ls) (hxs : xs.Nodup) (hnew : ∀ a ∈ xs, live a = false)
    (hpath : LinkPath nxt' xs.head? xs none) (hsame : ∀ a, a ∉ xs → nxt' a = nxt a)
    (hlive : ∀ a, live' a = true ↔ a ∈ xs ∨ live a = true) : Strands nxt' live' (xs :: ls) := by
  have hdisj : ∀ a ∈ xs, a ∉ ls.flatten := by
    intro a ha hc
    have hl := (h.live a).mpr hc
    rw [hnew a ha] at hl
    cases hl
  refine ⟨List.nodup_append'.mpr ⟨hxs, h.nodup, hdisj⟩, fun l hl => ?_, fun a => ?_⟩
  · rcases List.mem_cons.mp hl with rfl | hl
    · exact hpath
    · refine path_congr (fun a ha => hsame a fun hc => ?_) (h.path l hl)
      exact hdisj a hc (List.mem_flatten_of_mem hl ha)
  · rw [hlive, h.live, List.flatten_cons, List.mem_append]

end Strands

/-! ## Picking lists out of a family -/

theorem set_of_getElem? {α : Type*} {ls : List α} {i : ℕ} {x : α} (hi : ls[i]? = some x) :
    ls.set i x = ls := by
  obtain ⟨hlt, rfl⟩ := List.getElem?_eq_some_iff.mp hi
  exact List.set_getElem_self hlt

/-- The `i`-th entry comes to the front, and so does what replaces it. -/
theorem exists_pull {α : Type*} {ls : List α} {i : ℕ} {x : α} (hi : ls[i]? = some x) :
    ∃ rest, ls.Perm (x :: rest) ∧ ∀ x', (ls.set i x').Perm (x' :: rest) := by
  induction ls generalizing i with
  | nil => cases hi
  | cons a ls ih =>
    cases i with
    | zero =>
      cases hi
      exact ⟨ls, .refl _, fun _ => .refl _⟩
    | succ i =>
      obtain ⟨rest, hp, hset⟩ := ih (by simpa using hi)
      exact ⟨a :: rest, (hp.cons a).trans (.swap x a rest),
        fun x' => ((hset x').cons a).trans (.swap x' a rest)⟩

/-- The same for two entries. -/
theorem exists_pull_two {α : Type*} {ls : List α} {i j : ℕ} {x y : α} (hij : i ≠ j)
    (hi : ls[i]? = some x) (hj : ls[j]? = some y) :
    ∃ rest, ls.Perm (x :: y :: rest) ∧
      ∀ x' y', ((ls.set i x').set j y').Perm (x' :: y' :: rest) := by
  induction ls generalizing i j with
  | nil => cases hi
  | cons a ls ih =>
    cases i with
    | zero =>
      obtain rfl := Option.some.inj hi
      cases j with
      | zero => exact absurd rfl hij
      | succ j =>
        obtain ⟨rest, hp, hset⟩ := exists_pull (by simpa using hj : ls[j]? = some y)
        exact ⟨rest, hp.cons a, fun x' y' => (hset y').cons x'⟩
    | succ i =>
      cases j with
      | zero =>
        obtain rfl := Option.some.inj hj
        obtain ⟨rest, hp, hset⟩ := exists_pull (by simpa using hi : ls[i]? = some x)
        exact ⟨rest, (hp.cons a).trans (.swap x a rest),
          fun x' y' => ((hset x').cons y').trans (.swap x' y' rest)⟩
      | succ j =>
        obtain ⟨rest, hp, hset⟩ :=
          ih (i := i) (j := j) (by omega) (by simpa using hi) (by simpa using hj)
        have hmove : ∀ u v, (a :: u :: v :: rest).Perm (u :: v :: a :: rest) := fun u v =>
          (List.Perm.swap u a _).trans ((List.Perm.swap v a rest).cons u)
        exact ⟨a :: rest, (hp.cons a).trans (hmove x y),
          fun x' y' => ((hset x' y').cons a).trans (hmove x' y')⟩

/-! ## Handles -/

/-- The handles describe the lists, one for one. -/
structure Owned {H : Type*} (rep : H → List Addr → Prop) (nxt : Addr → Option Addr)
    (live : Addr → Bool) (hs : List H) (ls : List (List Addr)) : Prop where
  strands : Strands nxt live ls
  rep : List.Forall₂ rep hs ls

namespace Owned

variable {H : Type*} {rep : H → List Addr → Prop} {nxt nxt' : Addr → Option Addr}
  {live live' : Addr → Bool} {hs : List H} {ls : List (List Addr)} {u v : H} {i j : ℕ}

theorem get {R : H → List Addr → Prop} (h : List.Forall₂ R hs ls) (hi : hs[i]? = some u) :
    ∃ xs, ls[i]? = some xs ∧ R u xs := by
  induction h generalizing i with
  | nil => cases hi
  | cons hrep _ ih =>
    cases i with
    | zero =>
      cases hi
      exact ⟨_, rfl, hrep⟩
    | succ i => exact ih (by simpa using hi)

theorem set {R : H → List Addr → Prop} {xs : List Addr} (h : List.Forall₂ R hs ls) (hx : R u xs) :
    List.Forall₂ R (hs.set i u) (ls.set i xs) := by
  induction h generalizing i with
  | nil => exact .nil
  | cons hrep htail ih =>
    cases i with
    | zero => exact .cons hx htail
    | succ i => exact .cons hrep ih

/-- A new handle comes with a list of its own. -/
theorem append {xs : List Addr} (h : List.Forall₂ rep hs ls) (hx : rep u xs)
    (hs' : Strands nxt' live' (xs :: ls)) : Owned rep nxt' live' (hs ++ [u]) (ls ++ [xs]) :=
  ⟨hs'.perm (List.perm_append_singleton xs ls).symm,
    List.rel_append h (.cons hx .nil)⟩

/-- One handle and its list are replaced, or split into two. -/
theorem at_one (h : Owned rep nxt live hs ls) (hi : hs[i]? = some u) :
    ∃ xs rest, ls[i]? = some xs ∧ rep u xs ∧ Strands nxt live (xs :: rest) ∧
      ∀ {nxt' live' p xs'}, rep p xs' →
        (Strands nxt' live' (xs' :: rest) →
          Owned rep nxt' live' (hs.set i p) (ls.set i xs')) ∧
        ∀ {v ys}, rep v ys → Strands nxt' live' (ys :: xs' :: rest) →
          Owned rep nxt' live' (hs.set i p ++ [v]) (ls.set i xs' ++ [ys]) := by
  obtain ⟨xs, hx, hrep⟩ := get h.rep hi
  obtain ⟨rest, hp, hset⟩ := exists_pull hx
  exact ⟨xs, rest, hx, hrep, h.strands.perm hp, fun hrep' =>
    ⟨fun hs' => ⟨hs'.perm (hset _).symm, set h.rep hrep'⟩,
      fun hv hs' => append (set h.rep hrep') hv (hs'.perm ((hset _).symm.cons _))⟩⟩

/-- Two handles and their lists are replaced. -/
theorem at_two (h : Owned rep nxt live hs ls) (hij : i ≠ j) (hi : hs[i]? = some u)
    (hj : hs[j]? = some v) :
    ∃ xs ys rest, ls[i]? = some xs ∧ ls[j]? = some ys ∧ rep u xs ∧ rep v ys ∧
      Strands nxt live (xs :: ys :: rest) ∧
      ∀ {nxt' live' p q xs' ys'}, rep p xs' → rep q ys' →
        Strands nxt' live' (xs' :: ys' :: rest) →
        Owned rep nxt' live' ((hs.set i p).set j q) ((ls.set i xs').set j ys') := by
  obtain ⟨xs, hx, hxs⟩ := get h.rep hi
  obtain ⟨ys, hy, hys⟩ := get h.rep hj
  obtain ⟨rest, hp, hset⟩ := exists_pull_two hij hx hy
  exact ⟨xs, ys, rest, hx, hy, hxs, hys, h.strands.perm hp,
    fun hx' hy' hs' => ⟨hs'.perm (hset _ _).symm, set (set h.rep hx') hy'⟩⟩

end Owned
