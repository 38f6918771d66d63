/-
# Round robin over the shards

One receiver calls `try_recv` again and again on a fixed list of shards, while senders
push and other receivers pop.  Shard `i` is never empty.  A scan that comes to shard `i`
takes its value there, so a value from another shard comes from a shard between the
cursor and shard `i`; the new cursor is right behind it, hence closer to shard `i`.

`dist` is the cyclic distance, `Progress` the potential argument over a run of calls.
-/
import Ubq.Lubq.Scan

namespace Lubq

open Function

/-! ## Cyclic distance -/

/-- How many of `n` shards come before shard `i`, from shard `p` on. -/
def dist (n p i : ℕ) : ℕ := if p ≤ i then i - p else i + n - p

/-- The shard after `c`. -/
def follow (n c : ℕ) : ℕ := if c + 1 < n then c + 1 else 0

theorem dist_lt {n p i : ℕ} (hi : i < n) (hp : p < n) : dist n p i < n := by
  unfold dist
  split <;> omega

/-- A scan that stops at `c` before it has come to `i` brings the cursor closer to `i`. -/
theorem dist_follow {n p c i : ℕ} {w : Bool} (hi : i < n) (hp : p < n) (hne : c ≠ i)
    (hbounds : match w with
      | false => p ≤ c ∧ c ≤ n - 1
      | true => c < p)
    (hnot : i ∉ visited p (n - 1) w c) : dist n (follow n c) i < dist n p i := by
  unfold dist follow
  cases w with
  | false =>
    obtain ⟨hpc, hcn⟩ : p ≤ c ∧ c ≤ n - 1 := hbounds
    unfold visited at hnot
    rw [List.mem_range'_1] at hnot
    split <;> split <;> split <;> omega
  | true =>
    unfold visited at hnot
    rw [List.mem_append, List.mem_range'_1, List.mem_range] at hnot
    split <;> split <;> split <;> omega

/-! ## Runs of calls -/

section Code

variable {T : Type*}

/-- What the others may do: push and pop, but shard `i` does not become empty. -/
structure Fixed (r i : ℕ) (s : Shared T) (g : Ghost) (s' : Shared T) (g' : Ghost) : Prop where
  env : Env r s g s' g'
  owned : s'.owned = s.owned
  settled : g'.nt = s'.owned.length
  busy : s'.queueAt i ≠ []

/-- The shard that the value comes from, at the step that returns it. -/
def Pc.source (s : Shared T) : Pc T → Option ℕ
  | .rCursor _ _ shard _ => some (s.heap shard).id
  | _ => none

/-- The cyclic distance from the cursor of receiver `r` to shard `i`. -/
def Shared.distance (s : Shared T) (r i : ℕ) : ℕ :=
  dist s.owned.length ((s.cursor r).elim 0 fun a => (s.heap a).id) i

/-- What a step returns to the caller, and from which shard. -/
def answer (s : Shared T) (pc : Pc T) (r : Shared T × Pc T) : List (Option ℕ × Res T) :=
  match r.2 with
  | .idle => (r.1.trace.getLast?.map fun e => (pc.source s, e.2.2)).toList
  | _ => []

/-- Runs of calls of `try_recv` on receiver `r` during which shard `i` is never empty: the
answers so far and the number of steps. -/
inductive Polls (cfg : Config) (t : Tid) (r i : ℕ) (s₀ : Shared T) (g₀ : Ghost) :
    List (Option ℕ × Res T) → ℕ → Shared T → Ghost → Pc T → Prop
  | start : Polls cfg t r i s₀ g₀ [] 0 s₀ g₀ .idle
  | call {l : List (Option ℕ × Res T)} {k : ℕ} {s s' : Shared T} {g : Ghost} {pc : Pc T} :
      Polls cfg t r i s₀ g₀ l k s g .idle →
        step cfg t (.call (.tryRecv r)) s .idle = some (s', pc) →
      Polls cfg t r i s₀ g₀ l k s' g pc
  | own {l : List (Option ℕ × Res T)} {k : ℕ} {s s' : Shared T} {g : Ghost} {pc pc' : Pc T} :
      Polls cfg t r i s₀ g₀ l k s g pc → step cfg t .run s pc = some (s', pc') →
      s'.queueAt i ≠ [] → Polls cfg t r i s₀ g₀ (l ++ answer s pc (s', pc')) (k + 1) s' g pc'
  | env {l : List (Option ℕ × Res T)} {k : ℕ} {s s' : Shared T} {g g' : Ghost} {pc : Pc T} :
      Polls cfg t r i s₀ g₀ l k s g pc → Fixed r i s g s' g' → Polls cfg t r i s₀ g₀ l k s' g' pc

end Code

variable {T : Type*} {cfg : Config} {t : Tid} {s s' : Shared T} {g g' : Ghost} {r i n : ℕ}
variable {pc : Pc T} {z : Shared T × Pc T} {l : List (Option ℕ × Res T)}

/-- The call. -/
def polling (T : Type*) (r : ℕ) : Recv T := ⟨r, .one, false, []⟩

/-! ## One call -/

/-- A scan for one value among `n` shards that has shown `m`: it has not passed shard `i`. -/
structure Passing (cur : Option ℕ) (r i n : ℕ) (m : List (Event T)) (j : ℕ) (s : Shared T)
    (g : Ghost)
    (pc : Pc T) : Prop where
  at_pc : ScanAt cur (polling T r) m j s g pc
  bound : ∀ b, m.head? = some (.boundary b) → b + 1 = n
  before : i ∉ (ids m).dropLast
  empty : popped m = [] → i ∉ ids m

variable {cur : Option ℕ} {m : List (Event T)} {j : ℕ}

/-- Until it has taken its value, a scan for one has nothing. -/
theorem popped_nil (h : ScanAt cur (polling T r) m j s g pc)
    (hne : ∀ y w a next, pc ≠ .rCursor y w a next) : popped m = [] := by
  have hlt : (popped m).length < (polling T r).size → popped m = [] := by
    intro hlt
    exact List.eq_nil_of_length_eq_zero (Nat.lt_one_iff.mp hlt)
  cases pc with
  | rTail x | rTake x b | rHead x b =>
    obtain ⟨_, rfl, _⟩ := h
    rfl
  | rNext y w a =>
    obtain ⟨c, _, _, h, _⟩ := h
    exact hlt h
  | rPop y w a next =>
    obtain ⟨c, _, _, _, h, _⟩ := h
    exact hlt h
  | rCursor y w a next => exact absurd rfl (hne y w a next)
  | rWrap y =>
    obtain ⟨_, _, h, _⟩ := h
    exact hlt h
  | rRotate y | rRotateHead y =>
    obtain ⟨_, _, h, _⟩ := h
    exact h
  | _ => exact h.elim

/-- What a step shows keeps the scan in front of shard `i`, unless it takes a value. -/
theorem Passing.shown (h : Passing cur r i n m j s g pc) (hreg : Registry s g)
    (hnt : g.nt = n) (hbusy : s.queueAt i ≠ []) :
    (∀ b, (m ++ pc.shows s).head? = some (.boundary b) → b + 1 = n) ∧
    i ∉ (ids (m ++ pc.shows s)).dropLast ∧
    (popped (m ++ pc.shows s) = [] → i ∉ ids (m ++ pc.shows s)) := by
  subst hnt
  refine ⟨bound_step hreg h.at_pc h.bound, ?_⟩
  by_cases hne : ∀ y w a next, pc ≠ .rPop y w a next
  · obtain ⟨hids, hpop⟩ := shows_quiet hne s
    rw [ids_append, popped_append, hids, hpop, List.append_nil, List.append_nil]
    exact ⟨h.before, h.empty⟩
  · push Not at hne
    obtain ⟨y, w, a, next, rfl⟩ := hne
    have hnil := popped_nil h.at_pc (by simp)
    obtain ⟨c, hst, _, _, hlt, _⟩ := h.at_pc
    have hid := hreg.ids c a hst.here
    have hids : ids (m ++ Pc.shows s (.rPop y w a next)) = ids m ++ [c] := by
      rw [ids_append]
      simp only [Pc.shows, hid]
      rfl
    rw [hids, List.dropLast_concat]
    refine ⟨h.empty hnil, fun hpop => ?_⟩
    rw [List.mem_append, not_or, List.mem_singleton]
    refine ⟨h.empty hnil, ?_⟩
    -- shard `i` would have given a value
    rintro rfl
    apply hbusy
    rw [queueAt_of_get hst.here]
    rw [popped_append, hnil] at hpop
    simp only [Pc.shows, popped, visits, List.nil_append, List.filterMap_cons, List.filterMap_nil,
      List.flatMap_cons, List.flatMap_nil, List.append_nil, List.map_eq_nil_iff] at hpop
    rcases List.take_eq_nil_iff.mp hpop with hz | hq
    · rw [hst.seen.recv, hnil] at hz
      simp [polling, Recv.size] at hz
    · exact hq

theorem Passing.steps (h : Passing cur r i n m j s g pc) (hnt : g.nt = n) : j ≤ 3 * n + 5 := by
  rcases h.at_pc.covers with ⟨_, _, rfl⟩ | ⟨b, hb, _, _, hj⟩ <;> omega

/-- A call has returned a value from shard `c`. -/
structure Returned (cur : Option ℕ) (r i n : ℕ) (l : List (Option ℕ × Res T)) (j : ℕ) (s : Shared T)
    (pc : Pc T) (c : ℕ) (v : T) : Prop where
  idle : pc = .idle
  answer : l = [(some c, .value v)]
  cursor : CursorAt s r (some (follow n c))
  closer : c ≠ i → dist n (follow n c) i < dist n (startOf cur (n - 1)) i
  steps : j ≤ 3 * n + 6

/-- A scan that has taken its value stores the cursor and returns. -/
theorem Passing.returns {y : Scan T} {w : Bool} {a : Addr} {next : Option Addr}
    (h : Passing cur r i n m j s g (.rCursor y w a next)) (hreg : Registry s g)
    (hlen : s.owned.length = n) (hi : i < n)
    (hs : step cfg t .run s (.rCursor y w a next) = some z) :
    ∃ c v, Returned cur r i n (answer s (.rCursor y w a next) z) (j + 1) z.1 z.2 c v := by
  obtain ⟨c, hst, hnext, hids, hle, hne, hsteps⟩ := h.at_pc
  have hseen := hst.seen
  have hb : y.boundaryId + 1 = n := h.bound _ hseen.first
  have hid := hreg.ids c a hst.here
  have hstart := startOf_le cur y.boundaryId
  rw [← hseen.start] at hstart
  -- exactly one value has been taken
  obtain ⟨v, hv⟩ : ∃ v, popped m = [v] := by
    apply List.length_eq_one_iff.mp
    have hpos := List.length_pos_iff.mpr hne
    exact Nat.le_antisymm hle hpos
  have hrecv : y.recv = ⟨r, .one, false, [v]⟩ := by
    rw [hseen.recv, hv]
    rfl
  have hstep :
      z = retRecv (s.setCursor r (next <|> s.head)) t ⟨r, .one, false, [v]⟩ (.value v) := by
    simp only [step, hrecv] at hs
    exact (Option.some.inj hs).symm
  subst hstep
  refine ⟨c, v, rfl, ?_, ?_, fun hci => ?_, ?_⟩
  · simp only [answer, retRecv, ret, Pc.source, hid, List.getLast?_concat, Option.map_some,
      Option.toList_some]
  · -- the shard behind `c`, or the head
    rcases hnext with ⟨b, rfl, hget⟩ | ⟨rfl, hbad⟩
    · have hlt : c + 1 < n := by
        rw [← hlen]
        exact (List.getElem?_eq_some_iff.mp hget).1
      refine ⟨b, ?_, update_self _ _ _⟩
      rwa [follow, if_pos hlt]
    · have hcn := (List.getElem?_eq_some_iff.mp hst.here).1
      obtain ⟨b, hhead, hget⟩ := hreg.head_some
      refine ⟨b, ?_, ?_⟩
      · rwa [follow, if_neg (by omega)]
      · show update s.cursor r (none <|> s.head) r = some b
        rw [update_self, hhead]
        rfl
  · have hbound : y.boundaryId = n - 1 := by omega
    rw [hbound] at hids hstart
    have hstart' : startOf cur (n - 1) = y.startId := by
      rw [hseen.start, hbound]
    rw [hstart']
    have hvisited : ids m = visited y.startId (n - 1) w c ++ [c] := by
      rw [hids, visited_succ]
      intro hw
      subst hw
      exact hst.bounds.1
    have hnot := h.before
    rw [hvisited, List.dropLast_concat] at hnot
    refine dist_follow (w := w) hi (by omega) hci ?_ hnot
    cases w with
    | false => exact ⟨hst.bounds.1, hbound ▸ hst.bounds.2⟩
    | true => exact hst.bounds
  · have hlenids := hseen.length_le (hids ▸ visited_initial (by
      cases w with
      | false => exact Nat.succ_le_succ hst.bounds.2
      | true => exact hst.bounds))
    have hw := w.toNat_le
    omega

/-- **One step of a call**: it goes on in front of shard `i`, or returns a value. -/
theorem Passing.step (h : Passing cur r i n m j s g pc) (hreg : Registry s g)
    (hnt : g.nt = n) (hlen : s.owned.length = n) (hi : i < n) (hbusy : s.queueAt i ≠ [])
    (hs : Lubq.step cfg t .run s pc = some z) : Registry z.1 g ∧
      (Passing cur r i n (m ++ pc.shows s) (j + 1) z.1 g z.2 ∧ answer s pc z = [] ∨
        ∃ c v, Returned cur r i n (answer s pc z) (j + 1) z.1 z.2 c v) := by
  obtain ⟨hbound, hbefore, hempty⟩ := h.shown hreg hnt hbusy
  obtain ⟨hreg', hat | ⟨b, hdone⟩⟩ := scan_step (x := polling T r) hreg rfl Nat.one_pos h.at_pc hs
  · refine ⟨hreg', .inl ⟨⟨hat, hbound, hbefore, hempty⟩, ?_⟩⟩
    have hscans := hat.scans
    unfold answer
    split
    · rename_i hidle
      rw [hidle] at hscans
      simp [Pc.scans] at hscans
    · rfl
  · refine ⟨hreg', .inr ?_⟩
    by_cases hcur : ∀ y w a next, pc ≠ .rCursor y w a next
    · exfalso
      -- a scan that has nothing in the end has seen shard `i` empty
      have hnil : popped (m ++ pc.shows s) = [] := by
        have hm := popped_nil h.at_pc hcur
        by_cases hpop : ∀ y w a next, pc ≠ .rPop y w a next
        · rw [popped_append, hm, (shows_quiet hpop s).2]
          rfl
        · push Not at hpop
          obtain ⟨y, w, a, next, rfl⟩ := hpop
          have hscans := hdone.scans
          simp only [Lubq.step] at hs
          split at hs
          · rename_i hnone
            rw [popped_append, hm]
            simp only [Pc.shows, hnone]
            rfl
          · cases hs
            simp [Pc.scans] at hscans
      rcases hdone.full with hfull | hfull
      · rw [hnil] at hfull
        simp [polling, Recv.size] at hfull
      · have hb := hbound b hdone.first
        apply hempty hnil
        rw [hfull, mem_order (startOf_le cur b)]
        omega
    · push Not at hcur
      obtain ⟨y, w, a, next, rfl⟩ := hcur
      exact h.returns hreg hlen hi hs

/-! ## Runs of calls -/

/-- The answers `l` so far, from the cursor `cur₀` to the cursor `cur`. -/
structure Progress (i n : ℕ) (cur₀ : Option ℕ) (l : List (Option ℕ × Res T)) (cur : Option ℕ) :
    Prop where
  succeeds : ∀ e ∈ l, ∃ c v, e = (some c, .value v)
  nearer : (∀ e ∈ l, e.1 ≠ some i) →
    l.length + dist n (startOf cur (n - 1)) i ≤ dist n (startOf cur₀ (n - 1)) i
  waits : ∀ pre, pre <+: l → (∀ e ∈ pre, e.1 ≠ some i) → pre.length ≤ n - 1

theorem Progress.start (i n : ℕ) (cur : Option ℕ) :
    Progress i n cur ([] : List (Option ℕ × Res T)) cur := by
  refine ⟨by simp, fun _ => by simp, fun pre hpre _ => ?_⟩
  rw [List.prefix_nil.mp hpre]
  exact Nat.zero_le _

theorem Progress.snoc {cur₀ cur : Option ℕ} {c : ℕ} {v : T}
    (h : Progress i n cur₀ l cur) (hi : i < n)
    (hcloser : c ≠ i → dist n (follow n c) i < dist n (startOf cur (n - 1)) i) :
    Progress i n cur₀ (l ++ [(some c, .value v)]) (some (follow n c)) := by
  have hfollow : startOf (some (follow n c)) (n - 1) = follow n c := by
    apply if_pos
    unfold follow
    split <;> omega
  have hnearer : (∀ e ∈ l ++ [(some c, (Res.value v : Res T))], e.1 ≠ some i) →
      (l ++ [(some c, (Res.value v : Res T))]).length +
        dist n (startOf (some (follow n c)) (n - 1)) i ≤ dist n (startOf cur₀ (n - 1)) i := by
    intro hall
    have hl := h.nearer fun e he => hall e (List.mem_append_left _ he)
    have hci : c ≠ i := by
      rintro rfl
      exact hall _ (List.mem_append_right _ (List.mem_singleton_self _)) rfl
    have hlt := hcloser hci
    rw [hfollow, List.length_append, List.length_singleton]
    omega
  refine ⟨fun e he => ?_, hnearer, fun pre hpre hall => ?_⟩
  · rcases List.mem_append.mp he with he | he
    · exact h.succeeds e he
    · exact ⟨c, v, List.mem_singleton.mp he⟩
  · rcases List.prefix_concat_iff.mp hpre with rfl | hpre
    · have hbound := hnearer hall
      have hlt := dist_lt hi (show startOf cur₀ (n - 1) < n from
        Nat.lt_of_le_of_lt (startOf_le cur₀ (n - 1)) (by omega))
      omega
    · exact h.waits pre hpre hall

/-- A scan does not register shards. -/
theorem scan_owned (hpc : pc.scans = true)
    (hs : step cfg t .run s pc = some z) : z.1.owned = s.owned := by
  by_cases hne : ∀ y w a next, pc ≠ .rPop y w a next
  · exact (scan_same hpc hne hs).owned
  · push Not at hne
    obtain ⟨y, w, a, next, rfl⟩ := hne
    simp only [step] at hs
    split at hs
    · cases hs
      exact (scanNext_same s t y w a next).owned
    · cases hs
      rfl

/-- What is known during a run of calls. -/
structure PollAt (r i n : ℕ) (cur₀ : Option ℕ) (l : List (Option ℕ × Res T)) (k : ℕ) (s : Shared T)
    (g : Ghost) (pc : Pc T) : Prop where
  registry : Registry s g
  settled : g.nt = n
  length : s.owned.length = n
  busy : s.queueAt i ≠ []
  here : ∃ cur, Progress i n cur₀ l cur ∧
    (pc = .idle ∧ CursorAt s r cur ∧ k ≤ (3 * n + 7) * l.length ∨
      ∃ m j, Passing cur r i n m j s g pc ∧ k ≤ (3 * n + 7) * l.length + j)

theorem poll_run {cur₀ : Option ℕ} (hreg : Registry s g) (hset : g.nt = s.owned.length)
    (hcur : CursorAt s r cur₀) (hi : i < s.owned.length) (hbusy : s.queueAt i ≠ [])
    {k : ℕ} (h : Polls cfg t r i s g l k s' g' pc) :
    PollAt r i s.owned.length cur₀ l k s' g' pc := by
  induction h with
  | start =>
    exact ⟨hreg, hset, rfl, hbusy, cur₀, .start i _ cur₀, .inl ⟨rfl, hcur, Nat.zero_le _⟩⟩
  | @call l k s₁ s₂ g₁ pc _ hs ih =>
    obtain ⟨hreg, hnt, hlen, hbusy, cur, hprog, ⟨_, hc, hk⟩ | ⟨m, j, hp, _⟩⟩ := ih
    · simp only [step] at hs
      split at hs
      · obtain ⟨rfl, rfl⟩ := Prod.mk.inj (Option.some.inj hs)
        have hsame : Same s₁ (s₁.setUser r (some t)) := ⟨rfl, rfl, rfl, rfl, rfl, rfl⟩
        have hcur' : CursorAt (s₁.setUser r (some t)) r cur := by
          cases cur with
          | none => exact hc
          | some c => exact hc
        refine ⟨hsame.registry hreg, hnt, hlen, ?_, cur, hprog,
          .inr ⟨[], 0, ⟨⟨rfl, rfl, rfl, hcur'⟩, by simp, by simp [ids, visits],
            by simp [ids, visits]⟩, hk⟩⟩
        rwa [hsame.queueAt]
      · cases hs
    · exact absurd hp.at_pc.scans (by simp [Pc.scans])
  | own _ hs hbusy' ih =>
    obtain ⟨hreg, hnt, hlen, hbusy, cur, hprog, ⟨rfl, _, _⟩ | ⟨m, j, hp, hk⟩⟩ := ih
    · simp [step] at hs
    · obtain ⟨hreg', hnext⟩ := hp.step hreg hnt hlen hi hbusy hs
      have hlen' := (congrArg List.length (scan_owned hp.at_pc.scans hs)).trans hlen
      refine ⟨hreg', hnt, hlen', hbusy', ?_⟩
      rcases hnext with ⟨hp', hans⟩ | ⟨c, v, hret⟩
      · rw [hans, List.append_nil]
        exact ⟨cur, hprog, .inr ⟨_, j + 1, hp', Nat.succ_le_succ hk⟩⟩
      · rw [hret.answer]
        refine ⟨_, hprog.snoc hi hret.closer, .inl ⟨hret.idle, hret.cursor, ?_⟩⟩
        have hsteps := hret.steps
        rw [List.length_append, List.length_singleton, Nat.mul_succ]
        omega
  | env _ hfix ih =>
    obtain ⟨hreg, hnt, hlen, hbusy, cur, hprog, hpc⟩ := ih
    refine ⟨hfix.env.registry, hfix.settled.trans (hfix.owned ▸ hlen), hfix.owned ▸ hlen,
      hfix.busy, cur, hprog, ?_⟩
    rcases hpc with ⟨hidle, hc, hk⟩ | ⟨m, j, hp, hk⟩
    · exact .inl ⟨hidle, hc.env hfix.env, hk⟩
    · exact .inr ⟨m, j, ⟨hp.at_pc.env hfix.env, hp.bound, hp.before, hp.empty⟩, hk⟩

/-- The cursor's shard has its position as id. -/
theorem CursorAt.distance (h : CursorAt s r cur) (hreg : Registry s g) (i : ℕ) :
    s.distance r i = dist s.owned.length (startOf cur (s.owned.length - 1)) i := by
  unfold Shared.distance
  cases cur with
  | none =>
    have hc : s.cursor r = none := h
    rw [hc]
    rfl
  | some c =>
    obtain ⟨a, ha, hc⟩ := h
    have hlt := (List.getElem?_eq_some_iff.mp ha).1
    have hstart : startOf (some c) (s.owned.length - 1) = c := if_pos (by omega)
    rw [hc, hstart, Option.elim_some, hreg.ids c a ha]

/-- **Round robin**: in every run of calls during which shard `i` is never empty, every call
returns a value within a bounded number of steps; a call that takes it from another shard
moves the cursor closer to shard `i`; so at most `n - 1` values are taken from other shards
before one is taken from shard `i`. -/
theorem round_robin (hreg : Registry s g) (hset : g.nt = s.owned.length)
    (hcur : ∃ cur, CursorAt s r cur) (hi : i < s.owned.length) (hbusy : s.queueAt i ≠ [])
    {k : ℕ} (h : Polls cfg t r i s g l k s' g' pc) :
    (∀ e ∈ l, ∃ c v, e = (some c, .value v)) ∧
    (pc ≠ .idle → ∃ z, step cfg t .run s' pc = some z) ∧
    k ≤ (3 * s.owned.length + 7) * (l.length + 1) ∧
    (∀ c v k₂ s₂ g₂, pc = .idle → Polls cfg t r i s' g' [(some c, .value v)] k₂ s₂ g₂ .idle →
      c ≠ i → s₂.distance r i < s'.distance r i) ∧
    ∀ pre, pre <+: l → (∀ e ∈ pre, e.1 ≠ some i) → pre.length ≤ s.owned.length - 1 := by
  obtain ⟨cur₀, hcur⟩ := hcur
  obtain ⟨hreg', hnt, hlen, hbusy', cur, hprog, hpc⟩ := poll_run hreg hset hcur hi hbusy h
  refine ⟨hprog.succeeds, fun hne => ?_, ?_, fun c v k₂ s₂ g₂ hidle h₂ hci => ?_, hprog.waits⟩
  · rcases hpc with ⟨hidle, _, _⟩ | ⟨m, j, hp, _⟩
    · exact absurd hidle hne
    · exact scan_enabled cfg t hp.at_pc.scans s'
  · rw [Nat.mul_succ]
    rcases hpc with ⟨_, _, hk⟩ | ⟨m, j, hp, hk⟩
    · omega
    · have hj := hp.steps hnt
      omega
  · rcases hpc with ⟨_, hc, _⟩ | ⟨m, j, hp, _⟩
    · -- the call is a run of its own
      obtain ⟨hreg₂, hnt₂, hlen₂, _, cur₂, hprog₂, ⟨_, hc₂, _⟩ | ⟨m, j, hp, _⟩⟩ :=
        poll_run hreg' (hnt.trans hlen.symm) hc (hlen ▸ hi) hbusy' h₂
      · have hnearer := hprog₂.nearer (by simp [hci])
        rw [List.length_singleton] at hnearer
        rw [hc.distance hreg', hc₂.distance hreg₂, hlen₂]
        omega
      · exact absurd hp.at_pc.scans (by simp [Pc.scans])
    · rw [hidle] at hp
      exact absurd hp.at_pc.scans (by simp [Pc.scans])

/-- Own steps only. -/
def ownSteps (cfg : Config) (t : Tid) (i : ℕ) :
    ℕ → List (Option ℕ × Res T) → Shared T × Pc T →
      Option (List (Option ℕ × Res T) × Shared T × Pc T)
  | 0, l, z => some (l, z)
  | k + 1, l, z =>
    match step cfg t .run z.1 z.2 with
    | none => none
    | some z' =>
        if z'.1.queueAt i = [] then none else ownSteps cfg t i k (l ++ answer z.1 z.2 z') z'

theorem Polls.ownSteps {l l' : List (Option ℕ × Res T)} {k k' : ℕ} {s₁ : Shared T} {g₁ : Ghost}
    {pc₁ : Pc T} (h : Polls cfg t r i s g l k s₁ g₁ pc₁)
    (hrun : Lubq.ownSteps cfg t i k' l (s₁, pc₁) = some (l', z)) :
    Polls cfg t r i s g l' (k + k') z.1 g₁ z.2 := by
  induction k' generalizing l k s₁ pc₁ with
  | zero =>
    obtain ⟨rfl, rfl⟩ := Prod.mk.inj (Option.some.inj hrun)
    exact h
  | succ k' ih =>
    unfold Lubq.ownSteps at hrun
    split at hrun
    · cases hrun
    · rename_i z' hs
      split at hrun
      · cases hrun
      · rename_i hbusy
        have hnext := ih (h.own hs hbusy) hrun
        rwa [Nat.add_right_comm] at hnext

/-- Two shards with values in both. -/
def twoBusy : Shared ℕ := twoShards.modShard 0 fun sh => { sh with queue := [(0, 5)] }

/-- The first call takes the value of shard 0, the second one that of shard 1. -/
theorem round_robin_two_shards : ∃ k s' l,
    Polls ⟨10⟩ 0 0 1 twoBusy ⟨fun _ => .free, none, [], 2, 2⟩ l k s'
      ⟨fun _ => .free, none, [], 2, 2⟩
      .idle ∧ l = [(some 0, .value 5), (some 1, .value 7)] ∧
    ∀ pre, pre <+: l → (∀ e ∈ pre, e.1 ≠ some 1) → pre.length ≤ 1 := by
  obtain ⟨z, hs, hrun⟩ : ∃ z, step ⟨10⟩ 0 (.call (.tryRecv 0)) twoBusy .idle = some z ∧
      ∃ y s₁, ownSteps ⟨10⟩ 0 1 6 [] z = some ([(some 0, .value 5)], s₁, .idle) ∧
      step ⟨10⟩ 0 (.call (.tryRecv 0)) s₁ .idle = some y ∧
      ∃ s₂, ownSteps ⟨10⟩ 0 1 5 [(some 0, .value 5)] y =
        some ([(some 0, .value 5), (some 1, .value 7)], s₂, .idle) :=
    ⟨_, rfl, _, _, rfl, rfl, _, rfl⟩
  obtain ⟨y, s₁, hrun, hs₁, s₂, hrun₂⟩ := hrun
  have h : Polls ⟨10⟩ 0 0 1 twoBusy _ _ _ s₂ ⟨fun _ => .free, none, [], 2, 2⟩ .idle :=
    ((((Polls.start.call hs).ownSteps hrun).call hs₁).ownSteps hrun₂)
  have hreg : Registry twoBusy ⟨fun _ => .free, none, [], 2, 2⟩ :=
    twoShards_registry.modShard rfl rfl
  exact ⟨_, _, _, h, rfl, (round_robin hreg rfl ⟨none, rfl⟩ (by decide) (by decide) h).2.2.2.2⟩

end Lubq
