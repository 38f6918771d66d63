/-
# Leases, the list of shards, and the order of values

What a user of the channel can rely on in every state of every run: live senders
have shards of their own, the list of shards is complete up to an append in
progress, the count of senders is right, and the values of a sender leave its shard
in the order in which they were sent, each once, whoever receives them and whoever
uses the shard later.

Between its two stores an append leaves the tail one shard behind the end of the
list, so the statement about the tail holds only while the registry lock is free.
-/
import Ubq.Lubq.Safety

namespace Lubq

variable {T : Type*} {cfg : Config} {t u : Tid} {s s' : Shared T} {g g' : Ghost}

/-! ## The list of shards -/

theorem Registry.nodup (h : Registry s g) : s.owned.Nodup := by
  rw [List.nodup_iff_getElem?_ne_getElem?]
  intro i j hij hj heq
  have hget := List.getElem?_eq_getElem hj
  have hi := h.ids i _ (heq.trans hget)
  have hj' := h.ids j _ hget
  omega

/-- The links lead through the shards that have been linked, and then to null. -/
theorem Registry.path (h : Registry s g) : LinkPath s.next s.head (s.owned.take g.nl) none := by
  have hpos := h.nt_pos
  have hle := h.nt_le
  have hlen := h.nl_le
  -- induction on the number of shards from position `j` on
  have hfrom : ∀ n j, j + n = g.nl → 0 < j →
      ∀ a, s.owned[j - 1]? = some a →
        LinkPath s.next (s.next a) ((s.owned.take g.nl).drop j) none := by
    intro n
    induction n with
    | zero =>
      intro j hj hj0 a ha
      rw [List.drop_eq_nil_of_le (by rw [List.length_take]; omega)]
      show s.next a = none
      rw [h.next _ a ha, if_neg (by omega)]
    | succ n ih =>
      intro j hj hj0 a ha
      have hlt : j < (s.owned.take g.nl).length := by
        rw [List.length_take]
        omega
      have hget : s.owned[j]? = some ((s.owned.take g.nl)[j]) := by
        rw [← List.getElem?_eq_getElem hlt, List.getElem?_take, if_pos (by omega)]
      rw [List.drop_eq_getElem_cons hlt]
      refine ⟨?_, ih (j + 1) (by omega) (by omega) _ hget⟩
      rw [h.next _ a ha, if_pos (by omega), Nat.sub_add_cancel hj0, hget]
  have hlt : 0 < (s.owned.take g.nl).length := by
    rw [List.length_take]
    omega
  have hget : s.owned[0]? = some ((s.owned.take g.nl)[0]) := by
    rw [← List.getElem?_eq_getElem hlt, List.getElem?_take, if_pos (by omega)]
  have hsplit := List.drop_eq_getElem_cons hlt
  rw [List.drop_zero] at hsplit
  rw [hsplit]
  exact ⟨h.head.trans hget, hfrom (g.nl - 1) 1 (by omega) Nat.one_pos _ hget⟩

theorem Registry.map_id (h : Registry s g) :
    (s.owned.take g.nl).map (fun a => (s.heap a).id) = List.range g.nl := by
  have hlen := h.nl_le
  apply List.ext_getElem
  · rw [List.length_map, List.length_take, List.length_range]
    omega
  · intro i h1 h2
    rw [List.length_range] at h2
    have hlt : i < s.owned.length := by omega
    rw [List.getElem_map, List.getElem_range, List.getElem_take]
    exact h.ids i _ (List.getElem?_eq_getElem hlt)

/-- The list that starts at `head`: its ids count up from zero, and it holds all
shards but perhaps one that is being appended; `tail` is its last shard, or the one
before it while an append is in progress. -/
structure Listed (s : Shared T) (l : List Addr) : Prop where
  path : LinkPath s.next s.head l none
  nodup : l.Nodup
  ids : l.map (fun a => (s.heap a).id) = List.range l.length
  shards : l <+: s.owned
  complete : s.owned.length ≤ l.length + 1
  tail : s.tail = l.getLast? ∨ s.tail = l.dropLast.getLast?
  settled : s.locked = false → l = s.owned ∧ s.tail = l.getLast?

/-- The last shard of the list. -/
theorem Registry.getLast (h : Registry s g) :
    (s.owned.take g.nl).getLast? = s.owned[g.nl - 1]? := by
  have hpos := h.nt_pos
  have hle := h.nt_le
  have hlen := h.nl_le
  rw [List.getLast?_eq_getElem?, List.length_take, List.getElem?_take, Nat.min_eq_left hlen,
    if_pos (by omega)]

/-- Once every shard comes up to the tail, the tail is the last of the list. -/
theorem Registry.tail_getLast (h : Registry s g) (hset : g.nt = s.owned.length) :
    s.tail = (s.owned.take g.nl).getLast? := by
  have hle := h.nt_le
  have hlen := h.nl_le
  rw [h.getLast, show g.nl = g.nt by omega]
  exact h.tail

theorem Registry.listed (h : Registry s g) : Listed s (s.owned.take g.nl) := by
  have hpos := h.nt_pos
  have hle := h.nt_le
  have hlen := h.nl_le
  have hmax := h.len_le
  have htake : (s.owned.take g.nl).length = g.nl := by
    rw [List.length_take]
    omega
  refine ⟨h.path, h.nodup.sublist (List.take_sublist _ _), by rw [htake]; exact h.map_id,
    List.take_prefix _ _, by omega, ?_, fun hfree => ?_⟩
  · rcases Nat.eq_or_lt_of_le hle with heq | hlt
    · left
      rw [h.getLast, ← heq]
      exact h.tail
    · right
      rw [List.getLast?_eq_getElem?, List.length_dropLast, htake, List.getElem?_dropLast, htake,
        if_pos (by omega), List.getElem?_take, if_pos (by omega), h.tail]
      congr 1
      omega
  · have hlock : g.lock = none := by
      by_contra hc
      simp [h.locked.mpr hc] at hfree
    have hset := h.settled hlock
    exact ⟨List.take_of_length_le (by omega), h.tail_getLast hset⟩

/-! ## Which step leases -/

/-- The parts of the state that make up the list of shards are the same. -/
structure Same (s s' : Shared T) : Prop where
  heap : s'.heap = s.heap
  owned : s'.owned = s.owned
  nextId : s'.nextId = s.nextId
  head : s'.head = s.head
  tail : s'.tail = s.tail
  locked : s'.locked = s.locked

theorem scanned_same (s : Shared T) (t : Tid) (x : Recv T) : Same s (scanned s t x).1 := by
  unfold scanned
  split <;> exact ⟨rfl, rfl, rfl, rfl, rfl, rfl⟩

/-- The loops of a scan leave the state alone, or they end the scan. -/
theorem scanWrapped_or (s : Shared T) (t : Tid) (y : Scan T) (p : Option Addr) :
    (scanWrapped s t y p).1 = s ∨ scanWrapped s t y p = scanned s t y.recv := by
  unfold scanWrapped scanEnd
  repeat' split
  all_goals first
    | exact .inl rfl
    | exact .inr rfl

theorem scanNext_or (s : Shared T) (t : Tid) (y : Scan T) (w : Bool) (a : Addr) (p : Option Addr) :
    (scanNext s t y w a p).1 = s ∨ scanNext s t y w a p = scanned s t y.recv := by
  unfold scanNext
  split
  · split <;> exact .inl rfl
  · exact scanWrapped_or s t y _

theorem Same.of_or {r : Shared T × Pc T} {x : Recv T} (h : r.1 = s ∨ r = scanned s t x) :
    Same s r.1 := by
  rcases h with h | rfl
  · rw [h]
    exact ⟨rfl, rfl, rfl, rfl, rfl, rfl⟩
  · exact scanned_same s t x

theorem scanWrapped_same (s : Shared T) (t : Tid) (y : Scan T) (p : Option Addr) :
    Same s (scanWrapped s t y p).1 := .of_or (scanWrapped_or s t y p)

theorem scanNext_same (s : Shared T) (t : Tid) (y : Scan T) (w : Bool) (a : Addr)
    (p : Option Addr) : Same s (scanNext s t y w a p).1 := .of_or (scanNext_or s t y w a p)

theorem addSender_heap (cfg : Config) (s : Shared T) (t : Tid) (h : ℕ) (a : Addr) (n : ℕ) :
    (addSender cfg s t h a n).1.heap = s.heap := by
  unfold addSender
  split <;> rfl

/-- A shard that a step makes active. -/
def Leased (s s' : Shared T) (a : Addr) : Prop :=
  a ∈ s.owned ∧ (s.heap a).producerActive = false ∧ (s'.heap a).producerActive = true

theorem not_leased_of_heap (h : s'.heap = s.heap) (a : Addr) : ¬ Leased s s' a := by
  rintro ⟨_, hoff, hon⟩
  simp [h, hoff] at hon

theorem not_leased_of_cursor {k : ℕ} {p : Option Addr} (h : s'.heap = (s.setCursor k p).heap)
    (a : Addr) : ¬ Leased s s' a := not_leased_of_heap h a

theorem not_leased_of_modShard {b : Addr} {f : Shard T → Shard T}
    (hf : (f (s.heap b)).producerActive = (s.heap b).producerActive)
    (hheap : s'.heap = (s.modShard b f).heap) (a : Addr) : ¬ Leased s s' a := by
  rintro ⟨_, hoff, hon⟩
  simp [hheap, modShard_field Shard.producerActive hf, hoff] at hon

theorem send_not_leased (s : Shared T) (t : Tid) (k : ℕ) (vs : List T) (op : Op T) (a : Addr) :
    Post (fun r => ¬ Leased s r.1 a) (send s t k vs op) := by
  unfold send
  split
  · split
    · rename_i b _
      exact not_leased_of_modShard (b := b) (f := (·.push k vs)) rfl rfl a
    · trivial
  · trivial

theorem step_not_leased (cfg : Config) (t : Tid) (act : Act T) (s : Shared T) {pc : Pc T}
    (hne : ∀ k i, pc ≠ .cCas k i) (a : Addr) :
    Post (fun r => ¬ Leased s r.1 a) (step cfg t act s pc) := by
  cases act with
  | call op =>
    cases pc with
    | idle =>
      cases op with
      | send k v => exact send_not_leased s t k [v] _ a
      | sendBatch k vs => exact send_not_leased s t k vs _ a
      | cloneSender k | tryRecv k | cloneReceiver k | isClosed k =>
        simp only [step]
        split
        · exact not_leased_of_heap (by rfl) a
        · trivial
      | dropSender k =>
        simp only [step]
        split
        · split
          · exact not_leased_of_heap (by rfl) a
          · trivial
        · trivial
      | tryRecvBatchInto k vs size =>
        simp only [step]
        split
        · split <;> exact not_leased_of_heap (by rfl) a
        · trivial
    | _ => cases op <;> trivial
  | spurious =>
    cases pc with
    | cLock k => exact not_leased_of_heap (by rfl) a
    | cAddCas k b n => exact not_leased_of_heap (addSender_heap cfg s t k b _) a
    | _ => trivial
  | alloc b =>
    cases pc with
    | cScan k i =>
      simp only [step]
      split
      · rename_i hcond
        rintro ⟨hmem, hoff, hon⟩
        have hab : a ≠ b := fun hc => hcond.2.2 (hc ▸ hmem)
        have hon' : ((s.newShard b).heap a).producerActive = true := hon
        simp [newShard_heap_ne s hab, hoff] at hon'
      · trivial
    | _ => trivial
  | run =>
    cases pc with
    | cCas k i => exact absurd rfl (hne k i)
    | dActive k b =>
      rintro ⟨_, hoff, hon⟩
      have hon' : ((s.modShard b (·.setActive false)).heap a).producerActive = true := hon
      by_cases hab : a = b
      · subst hab
        rw [modShard_self] at hon'
        simp [Shard.setActive] at hon'
      · simp [modShard_ne s hab, hoff] at hon'
    | cLink k b tail =>
      simp only [step]
      split
      · rename_i c
        exact not_leased_of_modShard (b := c) (f := (·.setNext (some b))) rfl rfl a
      · exact not_leased_of_heap (by rfl) a
    | rPop y w b next =>
      simp only [step]
      split
      · exact not_leased_of_heap (scanNext_same s t y w b next).heap a
      · exact not_leased_of_modShard (b := b) (f := (·.pop _)) rfl rfl a
    | rCursor y w b next =>
      simp only [step]
      split
      · exact not_leased_of_cursor (scanned_same _ t _).heap a
      · exact not_leased_of_cursor (scanNext_same _ t y w b next).heap a
    | rWrap y => exact not_leased_of_heap (scanWrapped_same s t y _).heap a
    | rTail x | rHead x b =>
      simp only [step]
      split
      · exact not_leased_of_heap (by rfl) a
      · exact not_leased_of_heap (scanned_same s t x).heap a
    | rRotate y =>
      simp only [step]
      split
      · exact not_leased_of_cursor (scanned_same _ t _).heap a
      · exact not_leased_of_heap (by rfl) a
    | rRotateHead y => exact not_leased_of_cursor (scanned_same _ t _).heap a
    | cAdd k b => exact not_leased_of_heap (addSender_heap cfg s t k b _) a
    | cAddCas k b n =>
      simp only [step]
      split
      · exact not_leased_of_heap (by rfl) a
      · exact not_leased_of_heap (addSender_heap cfg s t k b _) a
    | cScan k i =>
      simp only [step]
      split
      · split <;> exact not_leased_of_heap (by rfl) a
      · split
        · trivial
        · exact not_leased_of_heap (by rfl) a
    | cEmpty k i =>
      simp only [step]
      split
      · split <;> exact not_leased_of_heap (by rfl) a
      · exact not_leased_of_heap (by rfl) a
    | cLock k | cSpin k | rTake x b | rSenders x =>
      simp only [step]
      split <;> exact not_leased_of_heap (by rfl) a
    | idle | fault => trivial
    | _ => exact not_leased_of_heap (by rfl) a

/-- Only the exchange in `try_acquire_producer` leases a shard that exists. -/
theorem leased_cas {act : Act T} {pc : Pc T} {r : Shared T × Pc T}
    (hs : step cfg t act s pc = some r) {a : Addr} (hl : Leased s r.1 a) :
    ∃ k i, pc = .cCas k i ∧ s.owned[i]? = some a := by
  by_cases hne : ∀ k i, pc ≠ .cCas k i
  · revert hl
    apply Post.of hs
    exact (step_not_leased cfg t act s hne a).mono fun _ hn hl => absurd hl hn
  push Not at hne
  obtain ⟨k, i, rfl⟩ := hne
  refine ⟨k, i, rfl, ?_⟩
  revert hl
  apply Post.of hs
  cases act with
  | run =>
    simp only [step]
    split
    · rename_i b hb
      split
      · exact fun hl => absurd hl (not_leased_of_heap (by rfl) a)
      · rintro ⟨_, hoff, hon⟩
        by_cases hab : a = b
        · rwa [hab]
        · have hon' : ((s.modShard b (·.setActive true)).heap a).producerActive = true := hon
          simp [modShard_ne s hab, hoff] at hon'
    · exact fun hl => absurd hl (not_leased_of_heap (by rfl) a)
  | call op => cases op <;> trivial
  | _ => trivial

/-! ## Who appends -/

/-- Where the list is behind the shards, or `tail` behind the list, one thread is
appending: it has made its shard and not linked it yet, or linked it and not stored
`tail` yet. -/
structure Appended (c : Conf T) (l : List Addr) : Prop where
  linked : l = c.sh.owned ∨ ∃ u h a, (c.pc u = .cTail h a ∨ ∃ p, c.pc u = .cLink h a p) ∧
    c.sh.owned = l ++ [a]
  stored : c.sh.tail = l.getLast? ∨ ∃ u h a, c.pc u = .cStore h a ∧ l.getLast? = some a

theorem Appending.owned_eq (hreg : Registry s g) (h : Appending s g a) :
    s.owned = s.owned.take g.nt ++ [a] :=
  calc s.owned = s.owned.take (g.nt + 1) := (List.take_of_length_le hreg.len_le).symm
    _ = s.owned.take g.nt ++ [a] := by rw [List.take_add_one, h.last, Option.toList_some]

theorem appended {c : Conf T} (hI : Inv cfg c.sh g) (hL : ∀ t, Local cfg t c.sh g (c.pc t)) :
    Appended c (c.sh.owned.take g.nl) := by
  have hreg := hI.registry
  have hset : g.nt = c.sh.owned.length → Appended c (c.sh.owned.take g.nl) := fun hset =>
    ⟨.inl (List.take_of_length_le (hset ▸ hreg.nt_le)), .inl (hreg.tail_getLast hset)⟩
  cases hlock : g.lock with
  | none => exact hset (hreg.settled hlock)
  | some u =>
    -- the owner of the lock stands at one of the steps under it
    have hlocks := (hL u).lock.mp hlock
    have hh := (hL u).here
    cases hpc : c.pc u <;> rw [hpc] at hh hlocks
    case cScan => exact hset hh.2
    case cPanic => exact hset hh.2
    case cEmpty =>
      obtain ⟨_, _, hvac⟩ := hh
      exact hset hvac.2.2
    case cCas =>
      obtain ⟨_, _, hvac, _⟩ := hh
      exact hset hvac.2.2
    case cUnlock => exact hset hh.2.2
    case cTail k b =>
      obtain ⟨_, happ, hnl⟩ := hh
      refine ⟨.inr ⟨u, k, b, .inl hpc, ?_⟩, .inl ?_⟩
      · rw [hnl]
        exact happ.owned_eq hreg
      · rw [hreg.getLast, hnl]
        exact hreg.tail
    case cLink k b p =>
      obtain ⟨_, happ, hnl, _⟩ := hh
      refine ⟨.inr ⟨u, k, b, .inr ⟨p, hpc⟩, ?_⟩, .inl ?_⟩
      · rw [hnl]
        exact happ.owned_eq hreg
      · rw [hreg.getLast, hnl]
        exact hreg.tail
    case cStore k b =>
      obtain ⟨_, happ, hnl⟩ := hh
      refine ⟨.inl (List.take_of_length_le (hnl ▸ hreg.len_le)), .inr ⟨u, k, b, hpc, ?_⟩⟩
      rw [hreg.getLast, hnl]
      exact happ.last
    all_goals cases hlocks

/-! ## The statement -/

/-- The values of sender `h` that receiver `r` has popped, in order. -/
def Shared.poppedFrom (s : Shared T) (r h : ℕ) : List T :=
  valuesOf h ((s.recvs.filter (·.1 = r)).map Prod.snd)

/-- What holds in every state. -/
structure Orderly (s : Shared T) : Prop where
  /-- Live senders have shards of their own. -/
  exclusive : ∀ h ∈ s.live, ∀ h' ∈ s.live, s.shardOf[h]? = s.shardOf[h']? → h = h'
  listed : ∃ l, Listed s l
  counted : s.live ≠ [] → 1 ≤ s.senders
  /-- Of each sender, what has been received is a first part of what was sent. -/
  once : ∀ h, valuesOf h (s.recvs.map Prod.snd) <+: valuesOf h s.sends
  /-- One receiver sees the values of one sender in the order of sending. -/
  ordered : ∀ r h, (s.poppedFrom r h).Sublist (valuesOf h s.sends)
  /-- What calls have returned to a receiver is what it has popped, up to the
  values of a call in progress. -/
  returned : ∀ r, s.user r = none → s.got r = s.popped r

/-- Of each sender, what has been received is a first part of what was sent. -/
theorem Flow.once (h : Flow s) (k : ℕ) :
    valuesOf k (s.recvs.map Prod.snd) <+: valuesOf k s.sends := by
  rcases Nat.lt_or_ge k s.shardOf.length with hk | hk
  · rw [h.flow k _ (List.getElem?_eq_getElem hk)]
    exact List.prefix_append _ _
  · rw [valuesOf_eq_nil]
    · exact List.nil_prefix
    · intro e he
      obtain ⟨e', he', rfl⟩ := List.mem_map.mp he
      have := h.recv_lt e' he'
      omega

theorem Inv.orderly (h : Inv cfg s g) : Orderly s where
  exclusive := by
    intro k hk k' hk' heq
    have hget := List.getElem?_eq_getElem (h.leases.live_lt k hk)
    have h1 := (h.leases.live_iff _ k).mpr ⟨hk, hget⟩
    rw [(h.leases.live_iff _ k').mpr ⟨hk', heq ▸ hget⟩] at h1
    exact (Lease.live.inj h1).symm
  listed := ⟨_, h.registry.listed⟩
  counted := by
    intro hne
    obtain ⟨k, hk⟩ := List.exists_mem_of_ne_nil _ hne
    exact Nat.pos_of_ne_zero (h.leases.pos_of_live hk)
  once := h.flow.once
  ordered := by
    intro r k
    refine List.Sublist.trans ?_ (h.flow.once k).sublist
    exact ((List.filter_sublist.map _).filter _).map _
  returned := h.flow.handed

/-- **Leases are exclusive and the order of a sender is kept.**  Every state is
orderly; the list of shards is behind only for the thread that appends; the count of
senders is exact while no `drop` is in progress; and a step that leases an existing
shard is the exchange of a thread that has found it inactive and empty, which it still is. -/
theorem leases_exclusive {c : Conf T} (hc : (system T cfg).Reachable c) :
    Orderly c.sh ∧ (∃ l, Listed c.sh l ∧ Appended c l) ∧
    ((∀ u, (c.pc u).drops = false) → c.sh.senders = c.sh.live.length) ∧
    ∀ t c' a, (system T cfg).Moves t c c' → Leased c.sh c'.sh a →
      c.sh.queue a = [] ∧ ∃ k i, c.pc t = .cCas k i ∧ c.sh.owned[i]? = some a := by
  obtain ⟨g, hI, hL⟩ := run_ok hc
  refine ⟨hI.orderly, ⟨_, hI.registry.listed, appended hI hL⟩, fun hdrops => ?_,
    fun t c' a hm hleased => ?_⟩
  · have hnil : g.dying = [] := by
      rw [List.eq_nil_iff_forall_not_mem]
      intro u hu
      rw [(hL u).dying, hdrops u] at hu
      exact absurd hu (by simp)
    rw [hI.leases.count, hnil]
    rfl
  · obtain ⟨s', p', ⟨act, hs⟩, rfl⟩ := hm
    obtain ⟨k, i, hpc, ha⟩ := leased_cas hs hleased
    have hh := (hL t).here
    rw [hpc] at hh
    obtain ⟨_, b, hvac, hempty⟩ := hh
    obtain rfl : a = b := Option.some.inj (ha.symm.trans hvac.1)
    exact ⟨hempty, k, i, hpc, ha⟩

/-- A second sender gets shard 4, sends and is dropped; its value is received, and
the exchange is about to lease the shard again. -/
theorem leases_exclusive_reuse : ∃ c c' : Conf ℕ, (system ℕ ⟨10⟩).Reachable c ∧
    (system ℕ ⟨10⟩).Moves 0 c c' ∧ Leased c.sh c'.sh 4 ∧ c.sh.queue 4 = [] ∧ Orderly c.sh ∧
    c.sh.poppedFrom 0 1 = [5] := by
  obtain ⟨c, s', hexec, hstep, hleased, hpop⟩ : ∃ (c : Conf ℕ) (s' : Shared ℕ),
      exec ⟨10⟩ (calls 0 (.cloneSender 0) 2 ++ [(0, .alloc 4)] ++ List.replicate 6 (0, .run) ++
        calls 0 (.send 1 5) 0 ++ calls 0 (.dropSender 1) 2 ++ calls 0 (.tryRecv 0) 8 ++
        calls 0 (.cloneSender 0) 4) = some c ∧
      step ⟨10⟩ 0 .run c.sh (c.pc 0) = some (s', .cUnlock 0 4) ∧ Leased c.sh s' 4 ∧
      c.sh.poppedFrom 0 1 = [5] :=
    ⟨_, _, rfl, rfl, ⟨by decide +kernel, rfl, rfl⟩, by decide +kernel⟩
  have hm : (system ℕ ⟨10⟩).Moves 0 c ⟨s', Function.update c.pc 0 (.cUnlock 0 4)⟩ :=
    ⟨s', _, ⟨.run, hstep⟩, rfl⟩
  obtain ⟨hord, _, _, hlease⟩ := leases_exclusive (exec_reachable hexec)
  exact ⟨c, _, exec_reachable hexec, hm, hleased, (hlease 0 _ 4 hm hleased).1, hord, hpop⟩

/-- An append makes shard 4 before it is in the list; between the two stores that follow,
the list ends in shard 4 while `tail` is still shard 0. -/
theorem registry_torn : ∃ c c' : Conf ℕ,
    (system ℕ ⟨10⟩).Reachable c ∧ c.sh.owned = [0, 4] ∧ LinkPath c.sh.next c.sh.head [0] none ∧
    (system ℕ ⟨10⟩).Reachable c' ∧ LinkPath c'.sh.next c'.sh.head [0, 4] none ∧
    c'.sh.tail = some 0 := by
  obtain ⟨c, hexec, howned, hhead, hnext⟩ : ∃ c : Conf ℕ,
      exec ⟨10⟩ (calls 0 (.cloneSender 0) 2 ++ [(0, .alloc 4)]) = some c ∧ c.sh.owned = [0, 4] ∧
        c.sh.head = some 0 ∧ c.sh.next 0 = none := ⟨_, rfl, rfl, rfl, rfl⟩
  obtain ⟨c', hexec', hhead', hnext', hend, htail⟩ : ∃ c' : Conf ℕ,
      exec ⟨10⟩ (calls 0 (.cloneSender 0) 2 ++ [(0, .alloc 4)] ++ List.replicate 2 (0, .run)) =
        some c' ∧ c'.sh.head = some 0 ∧ c'.sh.next 0 = some 4 ∧ c'.sh.next 4 = none ∧
        c'.sh.tail = some 0 := ⟨_, rfl, rfl, rfl, rfl, rfl⟩
  exact ⟨c, c', exec_reachable hexec, howned, ⟨hhead, hnext⟩, exec_reachable hexec',
    ⟨hhead', hnext', hend⟩, htail⟩

end Lubq
