/-
# The log of a ticketed queue

What a run has done, as lists that only grow: which positions were reserved for
which items, which were claimed, and which items were handed out.  The log is
history and never read by a program; `Agrees` ties it to the ledger, which is
what the invariants speak about.  Each operation of the ledger has its entry in
the log, and each of the lemmas below says that the two stay in step.

The consequence a user of a queue sees is `Agrees.subperm`: what was handed out
is a part of what was sent, each item at most as often as it was sent.
-/
import Ubq.Ledger
import Mathlib.Algebra.GroupWithZero.Nat
import Mathlib.Data.List.Perm.Subperm

/-- Reservations, claims and deliveries, each with its thread and position. -/
structure Log (ι α : Type*) where
  reservations : List (ι × ℕ × List α)
  claims : List (ι × ℕ × ℕ)
  delivered : List (ι × ℕ × α)

namespace Log

variable {ι α : Type*} {p : ℕ}

/-- The log of a new queue. -/
def empty : Log ι α := ⟨[], [], []⟩

/-- `t` has reserved the positions from `p` on for the items `vs`. -/
def reserve (l : Log ι α) (t : ι) (p : ℕ) (vs : List α) : Log ι α :=
  { l with reservations := l.reservations ++ [(t, p, vs)] }

/-- `t` has claimed the positions `[p, p + n)`. -/
def claim (l : Log ι α) (t : ι) (p n : ℕ) : Log ι α :=
  { l with claims := l.claims ++ [(t, p, n)] }

/-- `t` has been handed the item `v` of position `p`. -/
def deliver (l : Log ι α) (t : ι) (p : ℕ) (v : α) : Log ι α :=
  { l with delivered := l.delivered ++ [(t, p, v)] }

/-- All reserved items, in the order of their positions. -/
def sent (l : Log ι α) : List α := (l.reservations.map (fun e => e.2.2)).flatten

/-- The number of positions claimed so far. -/
def claimedLen (l : Log ι α) : ℕ := (l.claims.map (fun e => e.2.2)).sum

/-- The items handed out, in the order in which that happened. -/
def received (l : Log ι α) : List α := l.delivered.map (fun e => e.2.2)

/-- `t` was handed the items `vs` of the positions from `p` on. -/
def Took (l : Log ι α) (t : ι) (p : ℕ) (vs : List α) : Prop :=
  ∀ j x, vs[j]? = some x → (t, p + j, x) ∈ l.delivered

@[simp] theorem reserve_claims (l : Log ι α) (t : ι) (p : ℕ) (vs : List α) :
    (l.reserve t p vs).claims = l.claims := rfl

@[simp] theorem reserve_sent (l : Log ι α) (t : ι) (p : ℕ) (vs : List α) :
    (l.reserve t p vs).sent = l.sent ++ vs := by
  simp [sent, reserve]

@[simp] theorem claim_claimedLen (l : Log ι α) (t : ι) (p n : ℕ) :
    (l.claim t p n).claimedLen = l.claimedLen + n := by
  simp [claimedLen, claim]

/-- The log only grows. -/
structure Grows (l l' : Log ι α) : Prop where
  reservations : ∀ e ∈ l.reservations, e ∈ l'.reservations
  delivered : ∀ e ∈ l.delivered, e ∈ l'.delivered

theorem Grows.refl (l : Log ι α) : Grows l l := ⟨fun _ h => h, fun _ h => h⟩

theorem Grows.trans {l l' l'' : Log ι α} (h : Grows l l') (h' : Grows l' l'') : Grows l l'' :=
  ⟨fun e he => h'.reservations e (h.reservations e he),
    fun e he => h'.delivered e (h.delivered e he)⟩

theorem grows_reserve (l : Log ι α) (t : ι) (p : ℕ) (vs : List α) : Grows l (l.reserve t p vs) :=
  ⟨fun _ he => List.mem_append_left _ he, fun _ he => he⟩

theorem grows_claim (l : Log ι α) (t : ι) (p n : ℕ) : Grows l (l.claim t p n) :=
  ⟨fun _ he => he, fun _ he => he⟩

theorem grows_deliver (l : Log ι α) (t : ι) (p : ℕ) (v : α) : Grows l (l.deliver t p v) :=
  ⟨fun _ he => he, fun _ he => List.mem_append_left _ he⟩

theorem Took.mono {l l' : Log ι α} {t : ι} {vs : List α} (h : l.Took t p vs)
    (hg : Grows l l') : l'.Took t p vs :=
  fun j x hj => hg.delivered _ (h j x hj)

theorem took_nil (l : Log ι α) (t : ι) (p : ℕ) : l.Took t p [] :=
  nofun

/-- One more item handed to `t`. -/
theorem Took.snoc {l : Log ι α} {t : ι} {vs : List α} (h : l.Took t p vs) (v : α) :
    (l.deliver t (p + vs.length) v).Took t p (vs ++ [v]) := by
  intro j x hj
  by_cases hlt : j < vs.length
  · rw [List.getElem?_append_left hlt] at hj
    exact List.mem_append_left _ (h j x hj)
  · rw [List.getElem?_append_right (by omega)] at hj
    have hj0 : j - vs.length = 0 := by
      have := (List.getElem?_eq_some_iff.mp hj).1
      simp only [List.length_singleton] at this
      omega
    rw [hj0] at hj
    obtain rfl : v = x := Option.some.inj hj
    have hjl : j = vs.length := by omega
    subst hjl
    exact List.mem_append_right _ (by simp)

/-! ## The log and the ledger -/

/-- The reservations are the assigned values, in order and without overlap. -/
structure Sends (l : Log ι α) (L : Ledger ι α) : Prop where
  sent_len : l.sent.length = L.ppos
  sent_val : ∀ p x, l.sent[p]? = some x → (L.prod p).value? = some x
  resv_le : ∀ e ∈ l.reservations, e.2.1 + e.2.2.length ≤ L.ppos
  resv_val : ∀ e ∈ l.reservations, ∀ j x, e.2.2[j]? = some x → (L.prod (e.2.1 + j)).value? = some x
  resv_sorted : l.reservations.Pairwise (fun a b => a.2.1 + a.2.2.length ≤ b.2.1)

/-- The claims cover what has been claimed, in order and without overlap. -/
structure Claims (l : Log ι α) (L : Ledger ι α) : Prop where
  claim_len : l.claimedLen = L.cpos
  claim_le : ∀ e ∈ l.claims, e.2.1 + e.2.2 ≤ L.cpos
  claim_sorted : l.claims.Pairwise (fun a b => a.2.1 + a.2.2 ≤ b.2.1)
  claim_cover : ∀ p, p < L.cpos → ∃ e ∈ l.claims, e.2.1 ≤ p ∧ p < e.2.1 + e.2.2

/-- The deliveries are the taken positions, each once and with its value. -/
structure Delivers (l : Log ι α) (L : Ledger ι α) : Prop where
  deliv : ∀ e ∈ l.delivered, L.prod e.2.1 = .published e.2.2 ∧
    (L.cons e.2.1 = .taken e.1 ∨ L.cons e.2.1 = .done)
  deliv_mem : ∀ p, ((∃ t, L.cons p = .taken t) ∨ L.cons p = .done) → ∃ e ∈ l.delivered, e.2.1 = p
  deliv_nodup : (l.delivered.map (fun e => e.2.1)).Nodup

/-- The log and the ledger say the same. -/
structure Agrees (l : Log ι α) (L : Ledger ι α) : Prop extends
  Sends l L, Claims l L, Delivers l L

theorem empty_agrees : (empty : Log ι α).Agrees Ledger.empty where
  sent_len := rfl
  sent_val := fun p x h => absurd h (by simp [sent, empty])
  resv_le := fun e he => absurd he (by simp [empty])
  resv_val := fun e he => absurd he (by simp [empty])
  resv_sorted := List.Pairwise.nil
  claim_len := rfl
  claim_le := fun e he => absurd he (by simp [empty])
  claim_sorted := List.Pairwise.nil
  claim_cover := fun p hp => absurd hp (by simp [Ledger.empty])
  deliv := fun e he => absurd he (by simp [empty])
  deliv_mem := fun p hp => absurd hp (by simp [Ledger.empty])
  deliv_nodup := List.nodup_nil

variable {l : Log ι α} {L L' : Ledger ι α} {t : ι} {v : α}

/-! ### Steps that leave no entry -/

theorem Sends.congr (h : Sends l L) (hpp : L'.ppos = L.ppos)
    (hval : ∀ p x, (L.prod p).value? = some x → (L'.prod p).value? = some x) : Sends l L' where
  sent_len := h.sent_len.trans hpp.symm
  sent_val := fun p x hx => hval p x (h.sent_val p x hx)
  resv_le := fun e he => hpp ▸ h.resv_le e he
  resv_val := fun e he j x hx => hval _ x (h.resv_val e he j x hx)
  resv_sorted := h.resv_sorted

theorem Claims.congr (h : Claims l L) (hcp : L'.cpos = L.cpos) : Claims l L' where
  claim_len := h.claim_len.trans hcp.symm
  claim_le := fun e he => hcp ▸ h.claim_le e he
  claim_sorted := h.claim_sorted
  claim_cover := fun p hp => h.claim_cover p (hcp ▸ hp)

/-- A step on the producer side delivers nothing. -/
theorem Delivers.produce (hw : L.WF) (h : Delivers l L) (hstep : Ledger.Step t L L')
    (hcons : L'.cons = L.cons) : Delivers l L' where
  deliv := fun e he => by
    rw [hcons]
    exact ⟨hstep.published hw (h.deliv e he).1, (h.deliv e he).2⟩
  deliv_mem := fun p hp => h.deliv_mem p (hcons ▸ hp)
  deliv_nodup := h.deliv_nodup

/-- Nor does it reserve anything, where both positions stay. -/
theorem Agrees.produce (hw : L.WF) (h : Agrees l L) (hstep : Ledger.Step t L L')
    (hcons : L'.cons = L.cons) (hpp : L'.ppos = L.ppos) (hcp : L'.cpos = L.cpos) : Agrees l L' :=
  ⟨h.toSends.congr hpp fun _ _ hx => hstep.value? hw hx, h.toClaims.congr hcp,
    h.toDelivers.produce hw hstep hcons⟩

/-- Completing positions changes no entry either. -/
theorem Delivers.complete (h : Delivers l L) {a n : ℕ}
    (hall : ∀ p, a ≤ p → p < a + n → L.cons p = .taken t) : Delivers l (L.complete a n) := by
  refine ⟨fun e he => ⟨(h.deliv e he).1, ?_⟩, fun p hp => h.deliv_mem p ?_, h.deliv_nodup⟩
  · by_cases hin : a ≤ e.2.1 ∧ e.2.1 < a + n
    · exact Or.inr (Ledger.complete_cons_in _ hin.1 hin.2)
    · rw [Ledger.complete_cons_out _ hin]
      exact (h.deliv e he).2
  · by_cases hin : a ≤ p ∧ p < a + n
    · exact Or.inl ⟨t, hall p hin.1 hin.2⟩
    · rwa [Ledger.complete_cons_out _ hin] at hp

theorem Agrees.complete (h : Agrees l L) {a n : ℕ}
    (hall : ∀ p, a ≤ p → p < a + n → L.cons p = .taken t) : Agrees l (L.complete a n) :=
  ⟨h.toSends.congr rfl fun _ _ hx => hx, h.toClaims.congr rfl, h.toDelivers.complete hall⟩

/-! ### Steps with an entry -/

theorem Sends.reserve (hw : L.WF) (h : Sends l L) (t : ι) (vs : List α) :
    Sends (l.reserve t L.ppos vs) (L.reserve t vs) := by
  have hstep : Ledger.Step t L (L.reserve t vs) := .reserve vs
  refine ⟨?_, fun p x hx => ?_, fun e he => ?_, fun e he j x hx => ?_, ?_⟩
  · rw [reserve_sent, List.length_append, h.sent_len, Ledger.reserve_ppos]
  · rw [reserve_sent] at hx
    by_cases hlt : p < l.sent.length
    · rw [List.getElem?_append_left hlt] at hx
      exact hstep.value? hw (h.sent_val p x hx)
    · rw [List.getElem?_append_right (by omega)] at hx
      have hp : p = L.ppos + (p - l.sent.length) := by
        have := h.sent_len
        omega
      rw [hp, Ledger.reserve_prod_new L t vs hx]
      rfl
  · rw [Ledger.reserve_ppos]
    rcases List.mem_append.mp he with he | he
    · have := h.resv_le e he
      omega
    · rw [List.mem_singleton] at he
      subst he
      exact le_refl _
  · rcases List.mem_append.mp he with he | he
    · exact hstep.value? hw (h.resv_val e he j x hx)
    · rw [List.mem_singleton] at he
      subst he
      rw [Ledger.reserve_prod_new L t vs hx]
      rfl
  · show List.Pairwise _ (l.reservations ++ [(t, L.ppos, vs)])
    rw [List.pairwise_append]
    refine ⟨h.resv_sorted, by simp, fun e he e' he' => ?_⟩
    rw [List.mem_singleton] at he'
    subst he'
    exact h.resv_le e he

theorem Agrees.reserve (hw : L.WF) (h : Agrees l L) (t : ι) (vs : List α) :
    Agrees (l.reserve t L.ppos vs) (L.reserve t vs) := by
  have hd := h.toDelivers.produce hw (.reserve vs : Ledger.Step t L _) rfl
  exact ⟨h.toSends.reserve hw t vs,
    ⟨h.claim_len, h.claim_le, h.claim_sorted, h.claim_cover⟩,
    ⟨hd.deliv, hd.deliv_mem, hd.deliv_nodup⟩⟩

theorem Claims.claim (h : Claims l L) (t : ι) (n : ℕ) :
    Claims (l.claim t L.cpos n) (L.claim t n) := by
  refine ⟨?_, fun e he => ?_, ?_, fun p hp => ?_⟩
  · rw [claim_claimedLen, h.claim_len, Ledger.claim_cpos]
  · rw [Ledger.claim_cpos]
    rcases List.mem_append.mp he with he | he
    · have := h.claim_le e he
      omega
    · rw [List.mem_singleton] at he
      subst he
      exact le_refl _
  · show List.Pairwise _ (l.claims ++ [(t, L.cpos, n)])
    rw [List.pairwise_append]
    refine ⟨h.claim_sorted, by simp, fun e he e' he' => ?_⟩
    rw [List.mem_singleton] at he'
    subst he'
    exact h.claim_le e he
  · rw [Ledger.claim_cpos] at hp
    by_cases hlt : p < L.cpos
    · obtain ⟨e, he, hin⟩ := h.claim_cover p hlt
      exact ⟨e, List.mem_append_left _ he, hin⟩
    · exact ⟨(t, L.cpos, n), List.mem_append_right _ (by simp), by simp; omega, hp⟩

theorem Delivers.claim (hw : L.WF) (h : Delivers l L) (t : ι) (n : ℕ) :
    Delivers l (L.claim t n) := by
  refine ⟨fun e he => ⟨(h.deliv e he).1, ?_⟩, fun p hp => h.deliv_mem p ?_, h.deliv_nodup⟩
  · have hc := (h.deliv e he).2
    rcases hw.claim_cons t n e.2.1 with h1 | ⟨h1, _⟩
    · rwa [h1]
    · rw [h1] at hc
      rcases hc with hc | hc <;> exact absurd hc (by simp)
  · rcases hw.claim_cons t n p with h1 | ⟨_, h1⟩
    · rwa [h1] at hp
    · rw [h1] at hp
      rcases hp with ⟨_, hp⟩ | hp <;> exact absurd hp (by simp)

theorem Agrees.claim (hw : L.WF) (h : Agrees l L) (t : ι) (n : ℕ) :
    Agrees (l.claim t L.cpos n) (L.claim t n) := by
  have hd := h.toDelivers.claim hw t n
  exact ⟨{ h with }, h.toClaims.claim t n,
    ⟨hd.deliv, hd.deliv_mem, hd.deliv_nodup⟩⟩

theorem Delivers.take (h : Delivers l L) {q : ℕ} (hq : L.cons q = .claimed t)
    (hv : L.prod q = .published v) : Delivers (l.deliver t q v) (L.take t q) := by
  have hne : ∀ e ∈ l.delivered, e.2.1 ≠ q := by
    rintro e he rfl
    rcases (h.deliv e he).2 with hc | hc <;> rw [hq] at hc <;> exact absurd hc (by simp)
  refine ⟨fun e he => ?_, fun p hp => ?_, ?_⟩
  · rcases List.mem_append.mp he with he | he
    · rw [Ledger.take_prod, Ledger.take_cons, Function.update_of_ne (hne e he)]
      exact h.deliv e he
    · rw [List.mem_singleton] at he
      subst he
      exact ⟨hv, Or.inl (by simp)⟩
  · by_cases hpq : p = q
    · exact ⟨(t, q, v), List.mem_append_right _ (by simp), hpq.symm⟩
    · rw [Ledger.take_cons, Function.update_of_ne hpq] at hp
      obtain ⟨e, he, hep⟩ := h.deliv_mem p hp
      exact ⟨e, List.mem_append_left _ he, hep⟩
  · show ((l.delivered ++ [(t, q, v)]).map fun e => e.2.1).Nodup
    rw [List.map_append, List.nodup_append']
    refine ⟨h.deliv_nodup, by simp, fun p hp hq' => ?_⟩
    obtain ⟨e, he, rfl⟩ := List.mem_map.mp hp
    simp only [List.map_cons, List.map_nil, List.mem_singleton] at hq'
    exact hne e he hq'

theorem Agrees.take (h : Agrees l L) {q : ℕ} (hq : L.cons q = .claimed t)
    (hv : L.prod q = .published v) : Agrees (l.deliver t q v) (L.take t q) :=
  ⟨{ h with },
    ⟨h.claim_len, h.claim_le, h.claim_sorted, h.claim_cover⟩, h.toDelivers.take hq hv⟩

/-! ## What a user sees -/

/-- A published value is the item sent at its position. -/
theorem Sends.sent_of_published (hw : L.WF) (h : Sends l L)
    (hv : L.prod p = .published v) : l.sent[p]? = some v := by
  have hlt : p < l.sent.length := by
    rw [h.sent_len]
    exact hw.reserved_lt (by simp [hv])
  have hget : l.sent[p]? = some l.sent[p] := List.getElem?_eq_getElem hlt
  have hval := h.sent_val p _ hget
  rw [hv] at hval
  rw [hget]
  exact hval.symm

/-- What was handed out and what is left over, if it is published and at other
positions, are together a part of what was sent. -/
theorem Agrees.subperm_rest (hw : L.WF) (h : Agrees l L) {d : List (ℕ × α)}
    (hnd : (d.map Prod.fst).Nodup) (hval : ∀ e ∈ d, L.prod e.1 = .published e.2)
    (hout : ∀ e ∈ d, ∀ e' ∈ l.delivered, e'.2.1 ≠ e.1) :
    (l.received ++ d.map Prod.snd).Subperm l.sent := by
  -- tag every item with its position: then both sides are without repetition
  have hnodup : ((l.delivered.map fun e => (e.2.2, e.2.1)) ++ d.map Prod.swap).Nodup := by
    apply List.Nodup.of_map Prod.snd
    rw [List.map_append, List.map_map, List.map_map, List.nodup_append']
    refine ⟨h.deliv_nodup, hnd, fun p hp hp' => ?_⟩
    obtain ⟨e', he', rfl⟩ := List.mem_map.mp hp
    obtain ⟨e, he, hee⟩ := List.mem_map.mp hp'
    exact hout e he e' he' hee.symm
  have hsub : ((l.delivered.map fun e => (e.2.2, e.2.1)) ++ d.map Prod.swap) ⊆ l.sent.zipIdx := by
    intro x hx
    rw [List.mem_zipIdx_iff_getElem?]
    rcases List.mem_append.mp hx with hx | hx
    · obtain ⟨e, he, rfl⟩ := List.mem_map.mp hx
      exact h.toSends.sent_of_published hw (h.deliv e he).1
    · obtain ⟨e, he, rfl⟩ := List.mem_map.mp hx
      exact h.toSends.sent_of_published hw (hval e he)
  have hmap : ((l.delivered.map fun e => (e.2.2, e.2.1)) ++ d.map Prod.swap).map Prod.fst
      = l.received ++ d.map Prod.snd := by
    rw [List.map_append, List.map_map, List.map_map]
    rfl
  obtain ⟨m, hperm, hm⟩ := List.subperm_of_subset hnodup hsub
  refine ⟨m.map Prod.fst, ?_, ?_⟩
  · rw [← hmap]
    exact hperm.map Prod.fst
  · have := hm.map Prod.fst
    rwa [List.zipIdx_map_fst] at this

/-- If no position is missing, they are all that was sent. -/
theorem Agrees.perm_rest (hw : L.WF) (h : Agrees l L) {d : List (ℕ × α)}
    (hnd : (d.map Prod.fst).Nodup) (hval : ∀ e ∈ d, L.prod e.1 = .published e.2)
    (hout : ∀ e ∈ d, ∀ e' ∈ l.delivered, e'.2.1 ≠ e.1)
    (hall : ∀ p, p < L.ppos → (∃ e ∈ l.delivered, e.2.1 = p) ∨ ∃ e ∈ d, e.1 = p) :
    (l.received ++ d.map Prod.snd).Perm l.sent := by
  refine (h.subperm_rest hw hnd hval hout).perm_of_length_le ?_
  have hsub : List.range L.ppos ⊆ (l.delivered.map fun e => e.2.1) ++ d.map Prod.fst := by
    intro p hp
    rw [List.mem_append, List.mem_map, List.mem_map]
    exact hall p (List.mem_range.mp hp)
  have hlen := (List.subperm_of_subset List.nodup_range hsub).length_le
  rw [h.sent_len]
  simpa [received] using hlen

/-- **Exactly once, by value**: what was handed out is a part of what was sent. -/
theorem Agrees.subperm (hw : L.WF) (h : Agrees l L) : l.received.Subperm l.sent := by
  have hnone : ∀ e : ℕ × α, e ∉ ([] : List (ℕ × α)) := nofun
  simpa using h.subperm_rest hw (d := []) List.nodup_nil (fun e he => absurd he (hnone e))
    (fun e he => absurd he (hnone e))

end Log
