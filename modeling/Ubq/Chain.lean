/-
# Intrusively linked blocks and who owns them

Blocks are addresses with a `next` link.  The history `linked` lists the blocks
in the order in which they joined the queue's chain, so its `k`-th entry is the
block with token `k`; an address may occur in it many times, once for each of
its lives.  The ownership map sends every address to exactly one owner, which is
what makes "this block is in no other list" a fact about a function and not a
separation argument:

* `free`     not allocated,
* `chain k`  in the queue's chain, living under token `k`,
* `held t`   private to thread `t`,
* `pooled`   in the shared cache of spare blocks.

`ChainWF` ties the links of the blocks owned by the chain to the history.
-/
import Mathlib.Data.List.Basic
import Mathlib.Logic.Function.Basic
import Mathlib.Data.List.Nodup
import Mathlib.Data.List.Induction

open Function

/-- Block addresses; a pointer is an `Option Addr`, with `none` for null. -/
abbrev Addr := ℕ

/-- The unique owner of an address. -/
inductive Own (ι : Type*)
  | free
  | chain (k : ℕ)
  | held (t : ι)
  | pooled

section Own

variable {ι : Type*} {owner : Addr → Own ι} {a : Addr} {x y z : Own ι}

/-- Changing one owner does not change who else is owned by `z`. -/
theorem update_owner_iff (ha : owner a = x) (hz : y = z ↔ x = z) (b : Addr) :
    update owner a y b = z ↔ owner b = z := by
  by_cases hba : b = a
  · subst hba
    rwa [update_self, ha]
  · rw [update_of_ne hba]

/-- Whoever is owned by `z` after another owner was set was so before. -/
theorem owner_of_update {b : Addr} (hx : x ≠ z) (hb : update owner a x b = z) :
    b ≠ a ∧ owner b = z := by
  by_cases hba : b = a
  · rw [hba, update_self] at hb
    exact absurd hb hx
  · rw [update_of_ne hba] at hb
    exact ⟨hba, hb⟩

end Own

section Move

variable {β : Type*} {site : Addr → β} {l : List Addr} {x : β} {a : Addr}

/-- The blocks of `l` go to the site `x`. -/
def move (site : Addr → β) (l : List Addr) (x : β) : Addr → β :=
  fun a => if a ∈ l then x else site a

theorem move_of_mem (ha : a ∈ l) : move site l x a = x := if_pos ha

theorem move_of_notMem (ha : a ∉ l) : move site l x a = site a := if_neg ha

/-- A site that is neither left nor entered. -/
theorem move_iff {x y z : β} (hl : ∀ a ∈ l, site a = y) (hx : x ≠ z) (hy : y ≠ z) (a : Addr) :
    move site l x a = z ↔ site a = z := by
  by_cases ha : a ∈ l
  · rw [move_of_mem ha, hl a ha]
    exact iff_of_false hx hy
  · rw [move_of_notMem ha]

/-- The site that is entered. -/
theorem move_to_iff : move site l x a = x ↔ a ∈ l ∨ site a = x := by
  by_cases ha : a ∈ l
  · simp [move_of_mem ha, ha]
  · simp [move_of_notMem ha, ha]

end Move

theorem getElem?_concat_cases {α : Type*} {l : List α} {i : ℕ} {a b : α}
    (h : (l ++ [a])[i]? = some b) : l[i]? = some b ∨ i = l.length ∧ b = a := by
  rcases Nat.lt_trichotomy i l.length with hi | hi | hi
  · rw [List.getElem?_append_left hi] at h
    exact .inl h
  · subst hi
    rw [List.getElem?_concat_length] at h
    exact .inr ⟨rfl, (Option.some.inj h).symm⟩
  · rw [List.getElem?_eq_none (by simp; omega)] at h
    exact absurd h (by simp)

/-! ## Paths along the links -/

/-- Following the links from `p` visits exactly `l` and then arrives at `e`. -/
def LinkPath (nxt : Addr → Option Addr) : Option Addr → List Addr → Option Addr → Prop
  | p, [], e => p = e
  | p, a :: l, e => p = some a ∧ LinkPath nxt (nxt a) l e

section LinkPath

variable {nxt nxt' : Addr → Option Addr} {p e : Option Addr} {l xs ys : List Addr} {a z : Addr}

theorem path_nil : LinkPath nxt p [] e ↔ p = e := Iff.rfl

theorem path_congr (h : ∀ a ∈ l, nxt' a = nxt a) (hp : LinkPath nxt p l e) :
    LinkPath nxt' p l e := by
  induction l generalizing p with
  | nil => exact hp
  | cons a l ih =>
    obtain ⟨hpa, htail⟩ := hp
    refine ⟨hpa, ?_⟩
    rw [h a (by simp)]
    exact ih (fun b hb => h b (by simp [hb])) htail

theorem path_append {l₁ l₂ : List Addr} :
    LinkPath nxt p (l₁ ++ l₂) e ↔ ∃ m, LinkPath nxt p l₁ m ∧ LinkPath nxt m l₂ e := by
  induction l₁ generalizing p with
  | nil => simp [LinkPath]
  | cons a l ih =>
    constructor
    · rintro ⟨hpa, htail⟩
      obtain ⟨m, h1, h2⟩ := ih.mp htail
      exact ⟨m, ⟨hpa, h1⟩, h2⟩
    · rintro ⟨m, ⟨hpa, h1⟩, h2⟩
      exact ⟨hpa, ih.mpr ⟨m, h1, h2⟩⟩

/-- A null-terminated path starts at the head of its list. -/
theorem path_head (h : LinkPath nxt p l none) : p = l.head? := by
  cases l with
  | nil => exact h
  | cons a l => exact h.1

/-- The link of the `j`-th block of a null-terminated path. -/
theorem path_next (h : LinkPath nxt p l none) {j : ℕ}
    (ha : l[j]? = some a) : nxt a = l[j + 1]? := by
  induction l generalizing p j with
  | nil => cases ha
  | cons b l ih =>
    cases j with
    | zero =>
      obtain rfl : b = a := by simpa using ha
      rw [path_head h.2]
      simp [List.head?_eq_getElem?]
    | succ j => exact ih h.2 (by simpa using ha)

/-- Redirecting the last link of a path redirects its end. -/
theorem path_redirect {e' : Option Addr} (hz : z ∉ l)
    (h : LinkPath nxt p (l ++ [z]) e) : LinkPath (update nxt z e') p (l ++ [z]) e' := by
  obtain ⟨m, h1, h2⟩ := path_append.mp h
  apply path_append.mpr
  refine ⟨m, path_congr (fun a ha => ?_) h1, h2.1, ?_⟩
  · have haz : a ≠ z := fun hc => hz (hc ▸ ha)
    exact update_of_ne haz _ _
  · exact update_self _ _ _

/-- A link outside of a path does not matter to it. -/
theorem path_update (hz : z ∉ l) (h : LinkPath nxt p l e)
    (q : Option Addr) : LinkPath (update nxt z q) p l e := by
  refine path_congr (fun a ha => update_of_ne ?_ _ _) h
  rintro rfl
  exact hz ha

/-- The last block of `xs` gets `ys` as its successor. -/
theorem path_join (hnd : (xs ++ ys).Nodup)
    (hz : xs.getLast? = some z) (hx : LinkPath nxt xs.head? xs none)
    (hy : LinkPath nxt ys.head? ys none) :
    LinkPath (update nxt z ys.head?) (xs ++ ys).head? (xs ++ ys) none := by
  obtain ⟨ini, rfl⟩ := List.getLast?_eq_some_iff.mp hz
  obtain ⟨hnd, _, hdisj⟩ := List.nodup_append'.mp hnd
  rw [List.head?_append_of_ne_nil _ (by simp)]
  refine path_append.mpr ⟨ys.head?, path_redirect ?_ hx, path_update ?_ hy _⟩
  · exact fun hc => (List.nodup_append'.mp hnd).2.2 hc (by simp)
  · exact fun hc => hdisj (by simp) hc

/-- A list is cut behind the last block of `xs`. -/
theorem path_sever (hnd : (xs ++ ys).Nodup)
    (hz : xs.getLast? = some z) (h : LinkPath nxt (xs ++ ys).head? (xs ++ ys) none) :
    LinkPath (update nxt z none) xs.head? xs none ∧
      LinkPath (update nxt z none) ys.head? ys none := by
  obtain ⟨ini, rfl⟩ := List.getLast?_eq_some_iff.mp hz
  obtain ⟨hnd, _, hdisj⟩ := List.nodup_append'.mp hnd
  rw [List.head?_append_of_ne_nil _ (by simp)] at h
  obtain ⟨m, hfront, hback⟩ := path_append.mp h
  refine ⟨path_redirect ?_ hfront, path_update ?_ ?_ _⟩
  · exact fun hc => (List.nodup_append'.mp hnd).2.2 hc (by simp)
  · exact fun hc => hdisj (by simp) hc
  · rwa [← path_head hback]

/-- The path from a pointer to null is unique. -/
theorem path_unique {l l' : List Addr} (h : LinkPath nxt p l none) (h' : LinkPath nxt p l' none) :
    l = l' := by
  induction l generalizing p l' with
  | nil =>
    cases l' with
    | nil => rfl
    | cons b l' =>
      have h0 : p = none := h
      rw [h0] at h'
      exact absurd h'.1 (by simp)
  | cons a l ih =>
    cases l' with
    | nil =>
      have h0 : p = none := h'
      rw [h0] at h
      exact absurd h.1 (by simp)
    | cons b l' =>
      have hab : a = b := Option.some.inj (h.1.symm.trans h'.1)
      subst hab
      rw [ih h.2 h'.2]

/-- Everything met along the links lies on the path to null. -/
theorem path_mem {l l' : List Addr} (h : LinkPath nxt p l none)
    (h' : LinkPath nxt p (l' ++ [a]) e) : a ∈ l := by
  induction l' generalizing p l with
  | nil =>
    cases l with
    | nil =>
      have h0 : p = none := h
      rw [h0] at h'
      exact absurd h'.1 (by simp)
    | cons b l =>
      have hab : b = a := Option.some.inj (h.1.symm.trans h'.1)
      simp [hab]
  | cons c l' ih =>
    cases l with
    | nil =>
      have h0 : p = none := h
      rw [h0] at h'
      exact absurd h'.1 (by simp)
    | cons b l =>
      have hbc : b = c := Option.some.inj (h.1.symm.trans h'.1)
      subst hbc
      exact List.mem_cons_of_mem _ (ih h.2 h'.2)

open Classical in
/-- The number of blocks on the path from `p` to null, if there is one. -/
noncomputable def pathLen (nxt : Addr → Option Addr) (p : Option Addr) : ℕ :=
  if h : ∃ l, LinkPath nxt p l none then h.choose.length else 0

theorem pathLen_eq (h : LinkPath nxt p l none) : pathLen nxt p = l.length := by
  have hex : ∃ l, LinkPath nxt p l none := ⟨l, h⟩
  unfold pathLen
  rw [dif_pos hex, path_unique hex.choose_spec h]

/-- Following a link leaves one block fewer. -/
theorem pathLen_next (h : LinkPath nxt (some a) l none) :
    pathLen nxt (nxt a) < pathLen nxt (some a) := by
  cases l with
  | nil => simp [LinkPath] at h
  | cons b l =>
    obtain rfl : a = b := Option.some.inj h.1
    rw [pathLen_eq h, pathLen_eq h.2]
    exact Nat.lt_succ_self _

end LinkPath

/-! ## Tokens -/

/-- The token of the current life of `a`: the last place at which it was linked. -/
def tokenOf (linked : List Addr) (a : Addr) : ℕ :=
  linked.length - 1 - linked.reverse.idxOf a

theorem tokenOf_append (l : List Addr) (b a : Addr) (ha : a ∈ l ++ [b]) :
    tokenOf (l ++ [b]) a = if b = a then l.length else tokenOf l a := by
  unfold tokenOf
  rw [List.reverse_append, List.reverse_singleton, List.singleton_append, List.length_append,
    List.length_singleton]
  by_cases hab : b = a
  · subst hab
    simp
  · rw [if_neg hab, List.idxOf_cons_ne _ hab]
    omega

/-- The token is the place after which the address does not occur again. -/
theorem tokenOf_eq {l : List Addr} {a : Addr} {k : ℕ} (hk : l[k]? = some a)
    (hlast : ∀ j, k < j → l[j]? ≠ some a) : tokenOf l a = k := by
  induction l using List.reverseRecOn generalizing k with
  | nil => simp at hk
  | append_singleton l b ih =>
    have hmem : a ∈ l ++ [b] := List.mem_of_getElem? hk
    rw [tokenOf_append l b a hmem]
    have hlen : k < l.length + 1 := by
      have := (List.getElem?_eq_some_iff.mp hk).1
      simpa using this
    by_cases hab : b = a
    · rw [if_pos hab]
      by_contra hne
      exact hlast l.length (by omega) (by simp [hab])
    · rw [if_neg hab]
      have hkl : k < l.length := by
        by_contra hc
        have hkeq : k = l.length := by omega
        subst hkeq
        simp at hk
        exact hab hk
      apply ih
      · rw [← hk, List.getElem?_append_left hkl]
      · intro j hj hja
        have hjl := (List.getElem?_eq_some_iff.mp hja).1
        exact hlast j hj (by rw [List.getElem?_append_left hjl]; exact hja)

/-! ## The chain -/

/-- The blocks owned by the chain are linked in the order of the history. -/
structure ChainWF {ι : Type*} (linked : List Addr) (owner : Addr → Own ι)
    (nxt : Addr → Option Addr) : Prop where
  place : ∀ a k, owner a = .chain k → linked[k]? = some a
  last : ∀ a k, owner a = .chain k → ∀ j, k < j → linked[j]? ≠ some a
  link : ∀ a k, owner a = .chain k → nxt a = linked[k + 1]?

/-- Hand the blocks of `l` to the chain, under the tokens from `n` on. -/
def chainOwner {ι : Type*} (owner : Addr → Own ι) (n : ℕ) (l : List Addr) : Addr → Own ι :=
  fun a => if a ∈ l then .chain (n + l.idxOf a) else owner a

section Chain

variable {ι : Type*} {linked : List Addr} {owner owner' : Addr → Own ι}
  {nxt nxt' : Addr → Option Addr}
variable {a : Addr} {l : List Addr} {n j : ℕ}

theorem chainOwner_of_mem (ha : a ∈ l) :
    chainOwner owner n l a = .chain (n + l.idxOf a) := if_pos ha

theorem chainOwner_of_notMem (ha : a ∉ l) :
    chainOwner owner n l a = owner a := if_neg ha

/-- Whatever is still held was held before and is not among the linked blocks. -/
theorem chainOwner_held {u : ι}
    (h : chainOwner owner n l a = .held u) : a ∉ l ∧ owner a = .held u := by
  by_cases ha : a ∈ l
  · simp [chainOwner_of_mem ha] at h
  · rw [chainOwner_of_notMem ha] at h
    exact ⟨ha, h⟩

namespace ChainWF

theorem tokenOf (h : ChainWF linked owner nxt) {k : ℕ} (ha : owner a = .chain k) :
    tokenOf linked a = k :=
  tokenOf_eq (h.place a k ha) (h.last a k ha)

/-- Two live tokens never share an address. -/
theorem live_inj (h : ChainWF linked owner nxt) {j k : ℕ}
    (hj : linked[j]? = some a) (hk : owner a = .chain k) (hle : k ≤ j) : j = k := by
  by_contra hne
  exact h.last a k hk j (by omega) hj

/-- Steps that add nothing to the chain and leave the links of its blocks alone. -/
theorem congr (h : ChainWF linked owner nxt)
    (ho : ∀ a k, owner' a = .chain k → owner a = .chain k ∧ nxt' a = nxt a) :
    ChainWF linked owner' nxt' where
  place := fun a k ha => h.place a k (ho a k ha).1
  last := fun a k ha => h.last a k (ho a k ha).1
  link := fun a k ha => by rw [(ho a k ha).2]; exact h.link a k (ho a k ha).1

/-- The blocks from token `j` on, all of them live, with their owners. -/
theorem mem_drop_iff (h : ChainWF linked owner nxt)
    (hlive : ∀ k a, j ≤ k → linked[k]? = some a → owner a = .chain k) :
    a ∈ linked.drop j ↔ ∃ k, j ≤ k ∧ owner a = .chain k := by
  rw [List.mem_iff_getElem?]
  constructor
  · rintro ⟨i, hi⟩
    rw [List.getElem?_drop] at hi
    exact ⟨j + i, Nat.le_add_right j i, hlive _ a (Nat.le_add_right j i) hi⟩
  · rintro ⟨k, hk, ha⟩
    refine ⟨k - j, ?_⟩
    rw [List.getElem?_drop, Nat.add_sub_cancel' hk]
    exact h.place a k ha

theorem nodup_drop
    (hlive : ∀ k a, j ≤ k → linked[k]? = some a → owner a = .chain k) :
    (linked.drop j).Nodup := by
  rw [List.nodup_iff_getElem?_ne_getElem?]
  intro i i' hlt hi' heq
  have hget := List.getElem?_eq_getElem hi'
  rw [hget] at heq
  rw [List.getElem?_drop] at hget heq
  have h1 := hlive _ _ (Nat.le_add_right j i) heq
  rw [hlive _ _ (Nat.le_add_right j i') hget] at h1
  have := Own.chain.inj h1
  omega

/-- The blocks from a token on, all of them live, form a path to null. -/
theorem path_from (h : ChainWF linked owner nxt)
    (hlive : ∀ k a, j ≤ k → linked[k]? = some a → owner a = .chain k) :
    LinkPath nxt linked[j]? (linked.drop j) none := by
  obtain ⟨n, hn⟩ : ∃ n, n = linked.length - j := ⟨_, rfl⟩
  induction n generalizing j with
  | zero =>
    rw [List.drop_eq_nil_of_le (by omega), List.getElem?_eq_none (by omega)]
    rfl
  | succ n ih =>
    have hj : j < linked.length := by omega
    have hget : linked[j]? = some linked[j] := List.getElem?_eq_getElem hj
    rw [List.drop_eq_getElem_cons hj]
    refine ⟨hget, ?_⟩
    rw [h.link _ j (hlive j _ (Nat.le_refl j) hget)]
    exact ih (fun k a hk ha => hlive k a (by omega) ha) (by omega)

/-- The chain of the first block. -/
theorem start (h : ∀ a k, owner a ≠ .chain k) (hn : nxt a = none) :
    ChainWF [a] (update owner a (.chain 0)) nxt := by
  have hcases : ∀ b k, update owner a (.chain 0) b = .chain k → b = a ∧ k = 0 := by
    intro b k hb
    by_cases hba : b = a
    · subst hba
      rw [update_self] at hb
      exact ⟨rfl, by simpa using hb.symm⟩
    · rw [update_of_ne hba] at hb
      exact absurd hb (h b k)
  refine ⟨fun b k hb => ?_, fun b k hb j hj => ?_, fun b k hb => ?_⟩
  · obtain ⟨rfl, rfl⟩ := hcases b k hb
    rfl
  · obtain ⟨rfl, rfl⟩ := hcases b k hb
    rw [List.getElem?_eq_none (show [b].length ≤ j from hj)]
    simp
  · obtain ⟨rfl, rfl⟩ := hcases b k hb
    exact hn

/-- **Linking a private path behind the last live block extends the chain.** -/
theorem extend (h : ChainWF linked owner nxt) {t : ι} (hnd : l.Nodup)
    (hown : ∀ a ∈ l, owner a = .held t) (hpath : LinkPath nxt l.head? l none)
    {z : Addr} (hz : linked[linked.length - 1]? = some z)
    (hzown : owner z = .chain (linked.length - 1)) :
    ChainWF (linked ++ l) (chainOwner owner linked.length l)
      (update nxt z l.head?) := by
  have hlen : 0 < linked.length := by
    have := (List.getElem?_eq_some_iff.mp hz).1
    omega
  have hzl : z ∉ l := fun hc => by
    simp [hown z hc] at hzown
  have hbound : ∀ a k, owner a = .chain k → k < linked.length := fun a k ha =>
    (List.getElem?_eq_some_iff.mp (h.place a k ha)).1
  have hnot : ∀ a k, owner a = .chain k → a ∉ l := fun a k ha hc => by
    simp [hown a hc] at ha
  -- a new block sits at its own place in `l`, an old one keeps its token
  have hcases : ∀ a k, chainOwner owner linked.length l a = .chain k →
      (∃ i, l[i]? = some a ∧ k = linked.length + i) ∨ (a ∉ l ∧ owner a = .chain k) := by
    intro a k ha
    by_cases hal : a ∈ l
    · rw [chainOwner_of_mem hal] at ha
      left
      refine ⟨l.idxOf a, ?_, ?_⟩
      · rw [List.getElem?_eq_getElem (List.idxOf_lt_length_of_mem hal), List.getElem_idxOf]
      · simpa using ha.symm
    · rw [chainOwner_of_notMem hal] at ha
      exact Or.inr ⟨hal, ha⟩
  refine ⟨fun a k ha => ?_, fun a k ha j hj hja => ?_, fun a k ha => ?_⟩
  · rcases hcases a k ha with ⟨i, hi, rfl⟩ | ⟨_, ho⟩
    · rwa [List.getElem?_append_right (by omega), Nat.add_sub_cancel_left]
    · rw [List.getElem?_append_left (hbound a k ho)]
      exact h.place a k ho
  · rcases hcases a k ha with ⟨i, hi, rfl⟩ | ⟨hal, ho⟩
    · rw [List.getElem?_append_right (by omega)] at hja
      have hil := (List.getElem?_eq_some_iff.mp hi).1
      have heq := (List.getElem?_inj hil hnd).mp (hi.trans hja.symm)
      omega
    · by_cases hjl : j < linked.length
      · rw [List.getElem?_append_left hjl] at hja
        exact h.last a k ho j hj hja
      · rw [List.getElem?_append_right (by omega)] at hja
        exact hal (List.mem_of_getElem? hja)
  · rcases hcases a k ha with ⟨i, hi, rfl⟩ | ⟨hal, ho⟩
    · have haz : a ≠ z := fun hc => hzl (hc ▸ List.mem_of_getElem? hi)
      rw [update_of_ne haz, List.getElem?_append_right (by omega)]
      have hil := (List.getElem?_eq_some_iff.mp hi).1
      have hsplit : l = l.take i ++ a :: l.drop (i + 1) := by
        have hget : l[i] = a := (List.getElem?_eq_some_iff.mp hi).2
        rw [← hget, ← List.drop_eq_getElem_cons hil, List.take_append_drop]
      rw [hsplit] at hpath
      obtain ⟨m, _, _, h3⟩ := path_append.mp hpath
      rw [path_head h3, show linked.length + i + 1 - linked.length = i + 1 by omega,
        List.head?_drop]
    · by_cases haz : a = z
      · subst haz
        have hk : k = linked.length - 1 := by
          rw [ho] at hzown
          simpa using hzown
        rw [update_self, List.getElem?_append_right (by omega), hk,
          show linked.length - 1 + 1 - linked.length = 0 by omega, List.head?_eq_getElem?]
      · rw [update_of_ne haz, h.link a k ho]
        have hk := hbound a k ho
        by_cases hlast : k + 1 < linked.length
        · rw [List.getElem?_append_left hlast]
        · exfalso
          apply haz
          have hkeq : k = linked.length - 1 := by omega
          have hpl := h.place a k ho
          rw [hkeq, hz] at hpl
          exact (Option.some.inj hpl).symm

end ChainWF

end Chain
