/-
# Crossing a block boundary in the v8 queue

A reservation that reaches the sentinel of its block owns the head until it has moved
it to a later block: `advance_producer` links the private blocks and walks over the
reserved slots, `advance_consumer` claims what lies between the sentinel and one
reading of `producer.index`.  Both are run here alone, from any chain of blocks, any
private list and any place in the block, and what they do to the heads is shown by the
run (`Event`).

Index positions include the sentinel regions, lengths do not: `slotsBefore` counts the
slots below an index position, and `Later` is the position so many slots further on.
-/
import Ubq.Exec
import Ubq.Strands
import Ubq.V8.Inv
import Mathlib.Order.Interval.Finset.Nat
import Mathlib.Data.Nat.Count

namespace V8

open Function

/-! ## Counting slots -/

section Slots

variable (cfg : Config)

/-- The number of index positions below `ridx` that are no sentinels. -/
def slotsBefore (ridx : ℕ) : ℕ := Nat.count (fun x => isSentinel cfg x = false) ridx

theorem isSentinel_eq_false_iff {k off : ℕ} (h : off < cfg.stride) :
    isSentinel cfg (cfg.stride * k + off) = false ↔ off < cfg.cap := by
  rw [← Bool.not_eq_true, isSentinel_iff cfg h, Nat.not_le]

/-- Within a block every offset below `cap` is a slot, and none from there on. -/
theorem slotsBefore_add {k off : ℕ} (h : off ≤ cfg.stride) :
    slotsBefore cfg (cfg.stride * k + off) =
      slotsBefore cfg (cfg.stride * k) + min off cfg.cap := by
  induction off with
  | zero => simp
  | succ off ih =>
    have hlt : off < cfg.stride := h
    have hstep : slotsBefore cfg (cfg.stride * k + off + 1) =
        slotsBefore cfg (cfg.stride * k + off) +
          if isSentinel cfg (cfg.stride * k + off) = false then 1 else 0 :=
      Nat.count_succ _ _
    rw [← Nat.add_assoc, hstep, ih (Nat.le_of_lt hlt)]
    simp only [isSentinel_eq_false_iff cfg hlt]
    split <;> omega

theorem slotsBefore_block (k : ℕ) : slotsBefore cfg (cfg.stride * k) = k * cfg.cap := by
  induction k with
  | zero => simp [slotsBefore]
  | succ k ih =>
    have hcap := cfg.cap_lt_stride
    rw [Nat.mul_succ, slotsBefore_add cfg (Nat.le_refl _), ih, Nat.succ_mul]
    omega

theorem slotsBefore_eq {k off : ℕ} (h : off ≤ cfg.cap) :
    slotsBefore cfg (cfg.stride * k + off) = k * cfg.cap + off := by
  rw [slotsBefore_add cfg (Nat.le_trans h (Nat.le_of_lt cfg.cap_lt_stride)),
    slotsBefore_block, Nat.min_eq_left h]

/-- `ridx'` is the slot `len` slots after `ridx`. -/
structure Later (ridx len ridx' : ℕ) : Prop where
  slot : isSentinel cfg ridx' = false
  count : slotsBefore cfg ridx' = slotsBefore cfg ridx + len

theorem later_of_eq {k off k' off' len : ℕ} (hoff : off ≤ cfg.cap) (hoff' : off' < cfg.cap)
    (h : k' * cfg.cap + off' = k * cfg.cap + off + len) :
    Later cfg (cfg.stride * k + off) len (cfg.stride * k' + off') := by
  have hlt := Nat.lt_trans hoff' cfg.cap_lt_stride
  refine ⟨(isSentinel_eq_false_iff cfg hlt).mpr hoff', ?_⟩
  rw [slotsBefore_eq cfg hoff, slotsBefore_eq cfg (Nat.le_of_lt hoff'), h]

end Slots

/-! ## What a run shows -/

/-- What an access shows. -/
inductive Event
  /-- A list is stored behind the last block. -/
  | link (block : Addr) (next : Option Addr)
  /-- A head's block is stored. -/
  | block (b : Option Addr)
  /-- A head's index is stored. -/
  | index (i : ℕ)
  /-- `a - b` is evaluated. -/
  | sub (a b : ℕ)

section Code

variable {T : Type*}

/-- The subtractions of one iteration of the walk of `advance_consumer`. -/
def loopSubs (cfg : Config) (r : Read T) (newIndex pidx : ℕ) : List Event :=
  let nidx := newIndex / 2
  if nidx / cfg.ns / (cfg.nv + 1) = pidx / cfg.ns / (cfg.nv + 1) then
    [.sub r.cap r.len, .sub pidx nidx, .sub (nidx + min (r.cap - r.len) (pidx - nidx)) nidx]
  else if isSentinel cfg nidx then []
  else [.sub r.cap r.len]

/-- The events of the next access. -/
def Pc.events (cfg : Config) : Pc T → List Event
  | .apLink _ _ curr blocks => [.link curr blocks.head?]
  | .apBlock a _ => [.block a.blk]
  | .apIndex a hasNext =>
    [.index (2 * (cfg.stride * (a.token + a.depth) + a.off + a.rem) + hasNext)]
  | .acLoop r newIndex pidx _ => loopSubs cfg r newIndex pidx
  | .acBlock _ _ blk => [.block blk]
  | .acIndex _ newIndex => [.index newIndex]
  | _ => []

/-- A run of thread `t` alone, with the events it shows. -/
def Runs (cfg : Config) (t : Tid) : Shared T × Pc T → List Event → Shared T × Pc T → Prop :=
  Exec (fun r => step cfg t .run r.1 r.2) fun r => r.2.events cfg

/-- The private blocks are provisioned, up to the reservation: the freelist and the
allocator answer in any way. -/
def Provides (cfg : Config) (t : Tid) : Shared T × Pc T → Shared T × Pc T → Prop :=
  Relation.ReflTransGen fun r r' => (∀ src index block blocks, r.2 ≠ .wCas src index block blocks) ∧
    ∃ act, step cfg t act r.1 r.2 = some r'

end Code

variable {T : Type*} {cfg : Config} {t : Tid} {s s' : Shared T} {spine blocks : List Addr}

/-! ## Lists of blocks -/

/-- Disjoint lists of live blocks. -/
structure Lists (s : Shared T) (ls : List (List Addr)) : Prop where
  nodup : ls.flatten.Nodup
  linked : ∀ l ∈ ls, Linked s l
  allocated : ∀ a ∈ ls.flatten, s.allocated a = true

section Lists

variable {ls ls' : List (List Addr)} {self rhs : List Addr} {z : Addr}

theorem Lists.perm (h : Lists s ls) (hp : ls.Perm ls') : Lists s ls' :=
  ⟨hp.flatten.nodup_iff.mp h.nodup, fun l hl => h.linked l (hp.mem_iff.mpr hl),
    fun a ha => h.allocated a (hp.flatten.mem_iff.mpr ha)⟩

theorem Lists.nil (h : Lists s ls) : Lists s ([] :: ls) :=
  ⟨h.nodup, List.forall_mem_cons.mpr ⟨rfl, h.linked⟩, h.allocated⟩

/-- They are all the blocks of a family of strands. -/
theorem Lists.strands (h : Lists s ls) : Strands s.next (fun a => decide (a ∈ ls.flatten)) ls :=
  ⟨h.nodup, h.linked, fun _ => decide_eq_true_iff⟩

theorem next_setNext (s : Shared T) (z : Addr) (p : Option Addr) :
    (s.modBlock z (·.setNext p)).next = update s.next z p := by
  funext a
  by_cases ha : a = z
  · subst ha
    simp [Shared.next, Shared.modBlock, Block.setNext]
  · simp [Shared.next, Shared.modBlock, update_of_ne ha]

/-- The links change, and no block is added. -/
theorem Lists.of_strands {live : Addr → Bool} {p : Option Addr} (h : Lists s ls)
    (hs : Strands (update s.next z p) live ls') (hflat : ls'.flatten ⊆ ls.flatten) :
    Lists (s.modBlock z (·.setNext p)) ls' := by
  refine ⟨hs.nodup, fun l hl => ?_, fun a ha => h.allocated a (hflat ha)⟩
  unfold Linked
  rw [next_setNext]
  exact hs.path l hl

/-- The last block of `rhs` gets `self` as its successor. -/
theorem Lists.join (h : Lists s (self :: rhs :: ls)) (hz : rhs.getLast? = some z) :
    Lists (s.modBlock z (·.setNext self.head?)) ((rhs ++ self) :: ls) := by
  have hswap := h.perm (.swap rhs self ls)
  exact hswap.of_strands (hswap.strands.join hz) (by simp)

theorem Lists.addAssign (h : Lists s (self :: rhs :: ls)) :
    Lists (s.addAssign self rhs).1 ((rhs ++ self) :: ls) ∧
      (s.addAssign self rhs).2 = rhs ++ self := by
  unfold Shared.addAssign
  split
  · rename_i hnone
    obtain rfl := List.getLast?_eq_none_iff.mp hnone
    exact ⟨⟨h.nodup, fun l hl => h.linked l (List.mem_cons.mpr
      ((List.mem_cons.mp hl).imp id (List.mem_cons_of_mem _))), h.allocated⟩, rfl⟩
  · rename_i z hz
    exact ⟨h.join hz, rfl⟩

/-- A list is cut behind its block `z`. -/
theorem Lists.sever {taken left : List Addr} (h : Lists s ((taken ++ left) :: ls))
    (hz : taken.getLast? = some z) :
    Lists (s.modBlock z (·.setNext none)) (taken :: left :: ls) :=
  h.of_strands (h.strands.sever hz) (by simp)

/-- A new block goes in front of a list. -/
theorem Lists.alloc {acc : List Addr} {a : Addr} (h : Lists s (acc :: ls))
    (ha : s.allocated a = false) :
    Lists ((s.alloc a).modBlock a (·.setNext acc.head?)) ((a :: acc) :: ls) := by
  have hnew : a ∉ (acc :: ls).flatten := fun hc => by simp [h.allocated a hc] at ha
  have hnext : ((s.alloc a).modBlock a (·.setNext acc.head?)).next =
      update (update s.next a none) a acc.head? := by
    funext b
    rw [next_setNext]
    by_cases hb : b = a
    · rw [hb, update_self, update_self]
    · rw [update_of_ne hb, update_of_ne hb, update_of_ne hb]
      simp [Shared.next, Shared.alloc, update_of_ne hb]
  have hone : Strands (update s.next a none)
      (fun b => decide (b ∈ a :: (acc :: ls).flatten)) ([a] :: acc :: ls) :=
    h.strands.fresh (List.nodup_singleton a) (by simpa using hnew) ⟨rfl, by simp [path_nil]⟩
      (fun b hb => update_of_ne (by simpa using hb) _ _) (by simp)
  have hjoin := hone.join (z := a) rfl
  refine ⟨hjoin.nodup, fun l hl => ?_, fun b hb => ?_⟩
  · unfold Linked
    rw [hnext]
    exact hjoin.path l hl
  · show update s.allocated a true b = true
    by_cases hba : b = a
    · rw [hba, update_self]
    · rw [update_of_ne hba]
      exact h.allocated b ((List.mem_cons.mp hb).resolve_left hba)

end Lists

/-! ## Provisioning -/

/-- The freelist holds the blocks `cache`, or somebody is working on it. -/
def Cached (s : Shared T) (cache : List Addr) : Prop :=
  s.freelist = .ptr cache.head? ∨ s.freelist = .busy

/-- `acquire` has `acc` and asks for `remaining` more: with them and the blocks held
before, a range of the length of `src` fits behind the current block. -/
structure Collecting (cfg : Config) (spine : List Addr) (src : List T) (index : ℕ) (s : Shared T)
    (blocks acc cache : List Addr) (remaining : ℕ) : Prop where
  lists : Lists s [acc, cache, blocks, spine]
  enough : src.length ≤ cfg.cap * (blocks.length + acc.length + remaining)
  pos : 0 < remaining
  index : s.producerIndex = index

/-- The blocks that can be reached and those that are held have more than `src.length`
slots behind offset `off`. -/
structure Provided (cfg : Config) (spine : List Addr) (src : List T) (index off : ℕ) (s : Shared T)
    (blocks cache : List Addr) : Prop where
  lists : Lists s [blocks, cache, spine]
  room : off + src.length < (spine.length + blocks.length) * cfg.cap
  index : s.producerIndex = index

/-- What provisioning keeps. -/
def Provisioning (cfg : Config) (spine : List Addr) (src : List T) (index off : ℕ) (s : Shared T) :
    Pc T → Prop
  | .tLoad ret => ∃ blocks acc remaining cache,
      ret = .acquire (.more src index spine.head? blocks) acc remaining ∧
      Collecting cfg spine src index s blocks acc cache remaining ∧ Cached s cache
  | .tCas ret _ => ∃ blocks acc remaining cache,
      ret = .acquire (.more src index spine.head? blocks) acc remaining ∧
      Collecting cfg spine src index s blocks acc cache remaining ∧ Cached s cache
  | .tWalk ret taken rest => ∃ blocks acc remaining left,
      ret = .acquire (.more src index spine.head? blocks) acc remaining ∧
      Collecting cfg spine src index s blocks acc (taken ++ left) remaining ∧
      rest = left.head? ∧ taken ++ left ≠ [] ∧ taken.length ≤ remaining
  | .aAlloc ret acc remaining => ∃ blocks cache, ret = .more src index spine.head? blocks ∧
      Collecting cfg spine src index s blocks acc cache remaining ∧ Cached s cache
  | .wCas src' index' block blocks => src' = src ∧ index' = index ∧ block = spine.head? ∧
      ∃ cache, Provided cfg spine src index off s blocks cache ∧ Cached s cache
  | _ => False

section Provisioning

variable {src : List T} {index off remaining : ℕ} {acc cache : List Addr}

/-- `blocks += acquire(..)`. -/
theorem resume_provided (hlists : Lists s [acc, cache, blocks, spine]) (hcache : Cached s cache)
    (henough : src.length ≤ cfg.cap * (blocks.length + acc.length))
    (hread : s.producerIndex = index) (hspine : spine ≠ []) (hoff : off < cfg.cap) :
    Provisioning cfg spine src index off (resume s (.more src index spine.head? blocks) acc).1
      (resume s (.more src index spine.head? blocks) acc).2 := by
  have hperm : [acc, cache, blocks, spine].Perm [blocks, acc, cache, spine] :=
    List.Perm.append_right [spine]
      (List.perm_append_comm : ([acc, cache] ++ [blocks]).Perm ([blocks] ++ [acc, cache]))
  obtain ⟨hjoin, hsnd⟩ := (hlists.perm hperm).addAssign
  have hkeep : (s.addAssign blocks acc).1.producerIndex = s.producerIndex ∧
      (s.addAssign blocks acc).1.freelist = s.freelist := by
    unfold Shared.addAssign
    split <;> exact ⟨rfl, rfl⟩
  show Provisioning cfg spine src index off (s.addAssign blocks acc).1
    (.wCas src index spine.head? (s.addAssign blocks acc).2)
  rw [hsnd]
  refine ⟨rfl, rfl, rfl, cache, ⟨hjoin, ?_, hkeep.1.trans hread⟩, ?_⟩
  · have hpos : 0 < spine.length := List.length_pos_of_ne_nil hspine
    have hone := Nat.mul_le_mul_right cfg.cap hpos
    rw [List.length_append, Nat.add_mul, Nat.add_comm acc.length, Nat.mul_comm (_ + _)]
    omega
  · unfold Cached
    rwa [hkeep.2]

/-- `take` has returned `taken`. -/
theorem took_provided {taken : List Addr} (hlists : Lists s [acc, taken, cache, blocks, spine])
    (hcache : Cached s cache)
    (henough : src.length ≤ cfg.cap * (blocks.length + acc.length + remaining))
    (hle : taken.length ≤ remaining) (hread : s.producerIndex = index)
    (hspine : spine ≠ []) (hoff : off < cfg.cap) :
    Provisioning cfg spine src index off
      (took s (.acquire (.more src index spine.head? blocks) acc remaining) taken).1
      (took s (.acquire (.more src index spine.head? blocks) acc remaining) taken).2 := by
  obtain ⟨hjoin, hsnd⟩ := hlists.addAssign
  have hkeep : (s.addAssign acc taken).1.producerIndex = s.producerIndex ∧
      (s.addAssign acc taken).1.freelist = s.freelist := by
    unfold Shared.addAssign
    split <;> exact ⟨rfl, rfl⟩
  have hcache' : Cached (s.addAssign acc taken).1 cache := by
    unfold Cached
    rwa [hkeep.2]
  have hsum : blocks.length + (taken ++ acc).length + (remaining - taken.length) =
      blocks.length + acc.length + remaining := by
    rw [List.length_append]
    omega
  simp only [took, hsnd]
  split
  · rename_i hzero
    rw [hzero, Nat.add_zero] at hsum
    exact resume_provided hjoin hcache' (hsum ▸ henough) (hkeep.1.trans hread) hspine hoff
  · exact ⟨blocks, cache, rfl, ⟨hjoin, hsum.symm ▸ henough, by omega, hkeep.1.trans hread⟩, hcache'⟩

/-- Nothing to take: the freelist is empty or busy. -/
theorem took_nothing (h : Collecting cfg spine src index s blocks acc cache remaining)
    (hcache : Cached s cache) (hspine : spine ≠ []) (hoff : off < cfg.cap) :
    Provisioning cfg spine src index off
      (took s (.acquire (.more src index spine.head? blocks) acc remaining) []).1
      (took s (.acquire (.more src index spine.head? blocks) acc remaining) []).2 := by
  have hlists : Lists s [acc, [], cache, blocks, spine] := h.lists.nil.perm (List.Perm.swap _ _ _)
  exact took_provided hlists hcache h.enough (Nat.zero_le _) h.index hspine hoff

/-- The freelist is read (again). -/
theorem reload_provided (cfg : Config) (t : Tid)
    (h : Collecting cfg spine src index s blocks acc cache remaining) (hcache : Cached s cache)
    (hspine : spine ≠ []) (hoff : off < cfg.cap) :
    Post (fun r => Provisioning cfg spine src index off r.1 r.2)
      (step cfg t .run s (.tLoad (.acquire (.more src index spine.head? blocks) acc remaining))) :=
  reload_post (fun _ _ => ⟨blocks, acc, remaining, cache, rfl, h, hcache⟩)
    fun _ => took_nothing h hcache hspine hoff

/-- End of `take`: what was taken leaves the list. -/
theorem severed_provided {taken left : List Addr}
    (h : Collecting cfg spine src index s blocks acc (taken ++ left) remaining)
    (hne : taken ≠ []) (hle : taken.length ≤ remaining) (hspine : spine ≠ [])
    (hoff : off < cfg.cap) :
    Provisioning cfg spine src index off
      (step.severed s (.acquire (.more src index spine.head? blocks) acc remaining) taken
        left.head?).1
      (step.severed s (.acquire (.more src index spine.head? blocks) acc remaining) taken
        left.head?).2 := by
  obtain ⟨z, hz⟩ : ∃ z, taken.getLast? = some z :=
    ⟨_, List.getLast?_eq_some_getLast hne⟩
  have hperm : [acc, taken ++ left, blocks, spine].Perm [taken ++ left, acc, blocks, spine] :=
    List.Perm.swap _ _ _
  have hperm' : [taken, left, acc, blocks, spine].Perm [acc, taken, left, blocks, spine] :=
    List.Perm.append_right [blocks, spine]
      (List.perm_append_comm : ([taken, left] ++ [acc]).Perm ([acc] ++ [taken, left]))
  have hcut := ((h.lists.perm hperm).sever hz).perm hperm'
  unfold step.severed
  rw [hz]
  exact took_provided (s := { s.modBlock z (·.setNext none) with freelist := .ptr left.head? })
    ⟨hcut.nodup, hcut.linked, hcut.allocated⟩ (.inl rfl) h.enough hle h.index hspine hoff

theorem provisioning_step {pc : Pc T} (h : Provisioning cfg spine src index off s pc)
    (hspine : spine ≠ []) (hoff : off < cfg.cap)
    (hcas : ∀ src index block blocks, pc ≠ .wCas src index block blocks) {act : Act T}
    {r : Shared T × Pc T} (hs : step cfg t act s pc = some r) :
    Provisioning cfg spine src index off r.1 r.2 := by
  apply Post.of_pair hs
  cases pc with
  | tLoad ret =>
    obtain ⟨blocks, acc, remaining, cache, rfl, h, hcache⟩ := h
    cases act with
    | run => exact reload_provided cfg t h hcache hspine hoff
    | call op => cases op <;> trivial
    | _ => trivial
  | tCas ret head =>
    obtain ⟨blocks, acc, remaining, cache, rfl, h, hcache⟩ := h
    cases act with
    | run =>
      simp only [step]
      split
      · rename_i hfree
        -- the whole freelist is detached
        have hhead : cache.head? = some head := by
          rcases hcache with hptr | hbusy
          · exact FreeHead.ptr.inj (hptr.symm.trans hfree)
          · simp [hbusy] at hfree
        refine ⟨blocks, acc, remaining, cache, rfl,
          ⟨⟨h.lists.nodup, h.lists.linked, h.lists.allocated⟩, h.enough, h.pos, h.index⟩,
          hhead.symm, ?_, Nat.zero_le _⟩
        rintro rfl
        cases hhead
      · exact reload_provided cfg t h hcache hspine hoff
    | spurious => exact reload_provided cfg t h hcache hspine hoff
    | call op => cases op <;> trivial
    | _ => trivial
  | tWalk ret taken rest =>
    obtain ⟨blocks, acc, remaining, left, rfl, h, rfl, hne, hle⟩ := h
    cases act with
    | run =>
      cases left with
      | nil =>
        rw [List.append_nil] at hne
        exact severed_provided h hne hle hspine hoff
      | cons a left =>
        simp only [step, List.head?_cons, TakeRet.limit, Option.all_some, decide_eq_true_eq]
        split
        · have hassoc : (taken ++ [a]) ++ left = taken ++ a :: left := by simp
          refine ⟨blocks, acc, remaining, left, rfl, hassoc.symm ▸ h, ?_, by simp, ?_⟩
          · have hlink : Linked s (taken ++ a :: left) := h.lists.linked _ (by simp)
            have hget : (taken ++ a :: left)[taken.length]? = some a := by simp
            have hnext := path_next hlink hget
            rw [List.getElem?_append_right (Nat.le_add_right _ 1), Nat.add_sub_cancel_left] at hnext
            rwa [List.head?_eq_getElem?]
          · rwa [List.length_append]
        · rename_i hge
          have hpos := h.pos
          have htaken : taken ≠ [] := by
            rintro rfl
            exact hge hpos
          have hsevered := severed_provided h htaken hle hspine hoff
          exact hsevered
    | call op => cases op <;> trivial
    | _ => trivial
  | aAlloc ret acc remaining =>
    obtain ⟨blocks, cache, rfl, h, hcache⟩ := h
    cases act with
    | alloc a =>
      simp only [step]
      split
      · trivial
      · rename_i hfree
        have hlists := h.lists.alloc (a := a) (by simpa using hfree)
        have hpos := h.pos
        have hsum : blocks.length + (a :: acc).length + (remaining - 1) =
            blocks.length + acc.length + remaining := by
          rw [List.length_cons]
          omega
        split
        · rename_i hzero
          rw [hzero, Nat.add_zero] at hsum
          exact resume_provided hlists hcache (hsum ▸ h.enough) h.index hspine hoff
        · exact ⟨blocks, a :: acc, remaining - 1, cache, rfl,
            ⟨hlists, hsum.symm ▸ h.enough, by omega, h.index⟩, hcache⟩
    | call op => cases op <;> trivial
    | _ => trivial
  | wCas src index block blocks => exact absurd rfl (hcas _ _ _ _)
  | _ => exact h.elim

/-- The provisioning test of the loop, and `acquire` if it asks for more. -/
theorem provision_provided {k f : ℕ} (hlists : Lists s [blocks, cache, spine])
    (hcache : Cached s cache) (hspine : spine ≠ []) (hoff : off < cfg.cap) (hf : f < 2)
    (hflag : f = 1 → 2 ≤ spine.length) (hread : s.producerIndex = cfg.word k off f) :
    Provisioning cfg spine src (cfg.word k off f) off
      (provision cfg s src (cfg.word k off f) spine.head? blocks).1
      (provision cfg s src (cfg.word k off f) spine.head? blocks).2 := by
  have hlt := Nat.lt_trans hoff cfg.cap_lt_stride
  have hpos : 0 < spine.length := List.length_pos_of_ne_nil hspine
  unfold provision
  simp only [word_div_two cfg hf, word_mod_two cfg hf, decodeIndex_eq cfg hlt,
    Nat.mul_comm cfg.ns, cfg.vblock_offset]
  split
  · -- more blocks are needed
    have hnil : Lists s [[], cache, blocks, spine] := (hlists.perm (List.Perm.swap _ _ _)).nil
    have henough : src.length ≤ cfg.cap * (blocks.length +
        divCeil (src.length - cfg.cap * blocks.length) cfg.cap) := by
      have hmod := Nat.div_add_mod (src.length - cfg.cap * blocks.length + cfg.cap - 1) cfg.cap
      have hmodlt := Nat.mod_lt (src.length - cfg.cap * blocks.length + cfg.cap - 1) cfg.cap_pos
      unfold divCeil
      rw [Nat.mul_add]
      omega
    unfold acquire
    split
    · rename_i hzero
      rw [hzero, Nat.add_zero] at henough
      exact resume_provided hnil hcache henough hread hspine hoff
    · exact ⟨blocks, [], _, cache, rfl, ⟨hnil, henough, by omega, hread⟩, hcache⟩
  · refine ⟨rfl, rfl, rfl, cache, ⟨hlists, ?_, hread⟩, hcache⟩
    have hle : blocks.length + f + 1 ≤ spine.length + blocks.length := by
      rcases Nat.lt_or_ge f 1 with h | h
      · omega
      · have := hflag (by omega)
        omega
    have hmul := Nat.mul_le_mul_right cfg.cap hle
    rw [Nat.mul_comm _ cfg.cap] at hmul
    omega

/-- **Provisioning.** -/
theorem provided {k f : ℕ} (hlists : Lists s [blocks, cache, spine])
    (hcache : Cached s cache) (hspine : spine ≠ []) (hoff : off < cfg.cap) (hf : f < 2)
    (hflag : f = 1 → 2 ≤ spine.length) (hread : s.producerIndex = cfg.word k off f)
    {pc : Pc T} (h : Provides cfg t (s, .wLoop src (cfg.word k off f) spine.head? blocks) (s', pc))
    (hne : pc ≠ .wLoop src (cfg.word k off f) spine.head? blocks) :
    Provisioning cfg spine src (cfg.word k off f) off s' pc := by
  have hlt := Nat.lt_trans hoff cfg.cap_lt_stride
  have hhead : spine.head?.isNone = false := by
    cases spine with
    | nil => exact absurd rfl hspine
    | cons a spine => rfl
  have hrun : ∀ r, Provides cfg t (s, .wLoop src (cfg.word k off f) spine.head? blocks) r →
      r = (s, .wLoop src (cfg.word k off f) spine.head? blocks) ∨
      Provisioning cfg spine src (cfg.word k off f) off r.1 r.2 := by
    intro r hr
    induction hr with
    | refl => exact .inl rfl
    | tail _ hstep ih =>
      obtain ⟨hcas, act, hs⟩ := hstep
      rcases ih with rfl | ih
      · right
        cases act with
        | run =>
          simp only [step, word_div_two cfg hf, (isSentinel_eq_false_iff cfg hlt).mpr hoff, hhead,
            Bool.false_eq_true, if_false] at hs
          cases hs
          exact provision_provided hlists hcache hspine hoff hf hflag hread
        | call op => cases op <;> exact absurd hs (by simp [step])
        | _ => simp [step] at hs
      · exact .inr (provisioning_step ih hspine hoff hcas hs)
  rcases hrun _ h with heq | hp
  · exact absurd (Prod.mk.inj heq).2 hne
  · exact hp

end Provisioning

/-! ## `advance_producer` -/

section Producer

variable {w : Write T} {k j : ℕ}

/-- The search for the last block of the chain. -/
theorem find_exec (cfg : Config) (t : Tid) (w : Write T) (k : ℕ) (blocks : List Addr)
    (hlink : Linked s spine) (hj : j < spine.length) :
    ∃ z, spine.getLast? = some z ∧
      Runs cfg t (s, .apFind w k spine[j]? blocks) [] (s, .apLink w k z blocks) := by
  induction hn : spine.length - j generalizing j with
  | zero => omega
  | succ n ih =>
    obtain ⟨a, hget⟩ : ∃ a, spine[j]? = some a := ⟨_, List.getElem?_eq_getElem hj⟩
    have hnext : (s.heap a).next = spine[j + 1]? := path_next hlink hget
    by_cases hlast : j + 1 < spine.length
    · obtain ⟨b, hb⟩ : ∃ b, spine[j + 1]? = some b := ⟨_, List.getElem?_eq_getElem hlast⟩
      obtain ⟨z, hz, hrun⟩ := ih hlast (by omega)
      have hstep : step cfg t .run s (.apFind w k spine[j]? blocks) =
          some (s, .apFind w k spine[j + 1]? blocks) := by
        simp only [step, deref, hget, hnext, hb]
      exact ⟨z, hz, .silent hstep rfl hrun⟩
    · have hnone : spine[j + 1]? = none := List.getElem?_eq_none (by omega)
      refine ⟨a, ?_, .silent ?_ rfl (.refl _)⟩
      · rw [List.getLast?_eq_getElem?, ← hget]
        congr 1
        omega
      · simp only [step, deref, hget, hnext, hnone]

/-- The walk stands in block `j` of the chain; the range ends at position `e`. -/
structure AtBlock (cfg : Config) (a : Advance T) (chain : List Addr) (e j : ℕ) : Prop where
  blk : a.blk = chain[j]?
  depth : a.depth = j
  rest : j * cfg.cap + (a.off + a.rem) = e
  off : a.off < cfg.cap
  room : e < chain.length * cfg.cap

/-- Where the walk ends. -/
structure AtEnd (cfg : Config) (a a' : Advance T) (chain : List Addr) (e : ℕ) : Prop where
  blk : a'.blk = chain[e / cfg.cap]?
  depth : a'.depth = e / cfg.cap
  rest : a'.off + a'.rem = e % cfg.cap
  same : a'.w = a.w ∧ a'.token = a.token

/-- **The walk terminates**, by induction on the blocks in front of it. -/
theorem AtBlock.exec {a : Advance T} {chain : List Addr} {e : ℕ} (h : AtBlock cfg a chain e j)
    (hlink : Linked s chain) :
    ∃ a', Runs cfg t (s, .apWalk a) [] (s, .apHas a') ∧ AtEnd cfg a a' chain e := by
  have hrest := h.rest
  have hoff := h.off
  have hj : j < chain.length := by
    by_contra hc
    have := Nat.mul_le_mul_right cfg.cap (Nat.le_of_not_lt hc)
    have := h.room
    omega
  induction hn : chain.length - j generalizing a j with
  | zero => omega
  | succ n ih =>
    by_cases hge : cfg.cap - a.off ≤ a.rem
    · -- the range goes on in the next block, which is there
      obtain ⟨b, hget⟩ : ∃ b, chain[j]? = some b := ⟨_, List.getElem?_eq_getElem hj⟩
      have hstep : step cfg t .run s (.apWalk a) = some (s, .apWalk { a with
          rem := a.rem - (cfg.cap - a.off), off := 0, blk := chain[j + 1]?,
          depth := a.depth + 1 }) := by
        simp only [step, if_pos hge, deref, h.blk, hget]
        rw [show (s.heap b).next = chain[j + 1]? from path_next hlink hget]
      have hrest' : (j + 1) * cfg.cap + (0 + (a.rem - (cfg.cap - a.off))) = e := by
        rw [Nat.succ_mul]
        omega
      have hj' : j + 1 < chain.length := by
        by_contra hc
        have := Nat.mul_le_mul_right cfg.cap (Nat.le_of_not_lt hc)
        have := h.room
        omega
      have h' : AtBlock cfg { a with
          rem := a.rem - (cfg.cap - a.off), off := 0, blk := chain[j + 1]?,
          depth := a.depth + 1 } chain e (j + 1) :=
        ⟨rfl, congrArg (· + 1) h.depth, hrest', cfg.cap_pos, h.room⟩
      obtain ⟨a', hrun, hend⟩ := ih h' hrest' cfg.cap_pos hj' (by omega)
      exact ⟨a', .silent hstep rfl hrun, hend.blk, hend.depth, hend.rest, hend.same⟩
    · have hstep : step cfg t .run s (.apWalk a) = some (s, .apHas a) := by
        simp only [step, if_neg hge]
      obtain ⟨hdiv, hmod⟩ : e / cfg.cap = j ∧ e % cfg.cap = a.off + a.rem := by
        rw [Nat.div_mod_unique cfg.cap_pos, ← hrest, Nat.mul_comm]
        omega
      refine ⟨a, .silent hstep rfl (.refl _), ?_, ?_, hmod.symm, rfl, rfl⟩
      · rw [hdiv]
        exact h.blk
      · rw [hdiv]
        exact h.depth

/-- The flag of the block at place `i` of a chain. -/
def flagAt (chain : List Addr) (i : ℕ) : ℕ := if i + 1 < chain.length then 1 else 0

/-- The block and the index are stored. -/
theorem AtEnd.exec {a a' : Advance T} {chain : List Addr} {e : ℕ} (h : AtEnd cfg a a' chain e)
    (hlink : Linked s chain) (hi : e / cfg.cap < chain.length) :
    Runs cfg t (s, .apHas a')
      [.block chain[e / cfg.cap]?, .index (cfg.word (a.token + e / cfg.cap) (e % cfg.cap)
        (flagAt chain (e / cfg.cap)))]
      ({ s with
          producerBlock := chain[e / cfg.cap]?
          producerIndex := cfg.word (a.token + e / cfg.cap) (e % cfg.cap)
            (flagAt chain (e / cfg.cap)) }, .wSeg a.w) := by
  obtain ⟨b, hget⟩ : ∃ b, chain[e / cfg.cap]? = some b := ⟨_, List.getElem?_eq_getElem hi⟩
  have hnext : (s.heap b).next = chain[e / cfg.cap + 1]? := path_next hlink hget
  have hflag : (if (s.heap b).next.isNone then 0 else 1) = flagAt chain (e / cfg.cap) := by
    rw [hnext, flagAt]
    by_cases hlt : e / cfg.cap + 1 < chain.length
    · rw [if_pos hlt, List.getElem?_eq_getElem hlt]
      rfl
    · rw [if_neg hlt, List.getElem?_eq_none (by omega)]
      rfl
  have hhas :
      step cfg t .run s (.apHas a') = some (s, .apBlock a' (flagAt chain (e / cfg.cap))) := by
    simp only [step, deref, h.blk, hget, hflag]
  have hword : 2 * (cfg.stride * (a'.token + a'.depth) + a'.off + a'.rem) +
      flagAt chain (e / cfg.cap) =
      cfg.word (a.token + e / cfg.cap) (e % cfg.cap) (flagAt chain (e / cfg.cap)) := by
    unfold Config.word
    rw [h.same.2, h.depth, ← h.rest, Nat.add_assoc]
  refine .silent hhas rfl (.shown (y := ({ s with producerBlock := chain[e / cfg.cap]? },
    .apIndex a' (flagAt chain (e / cfg.cap)))) ?_ ?_ (.shown ?_ ?_ (.refl _)))
  · simp only [step, h.blk]
  · simp only [Pc.events, h.blk]
  · simp only [step, hword, h.same.1]
  · simp only [Pc.events, hword]

/-- A reservation that reaches the end of its block hands over to `advance_producer`. -/
theorem reserved_sentinel {src : List T} {cache : List Addr} {off f : ℕ} (hoff : off < cfg.cap)
    (hf : f < 2) (hfull : cfg.cap ≤ off + src.length) (hlists : Lists s [blocks, cache, spine]) :
    ∃ s', reserved cfg t s src (cfg.word k off f) spine.head? blocks =
        (s', .apFind ⟨src, 0, spine.head?, off / cfg.ns, off % cfg.ns, []⟩ k spine.head? blocks) ∧
      Lists s' [blocks, spine, cache] := by
  have hlt := Nat.lt_trans hoff cfg.cap_lt_stride
  have hsent : isSentinel cfg (cfg.stride * k + min (off + src.length) cfg.cap) = true := by
    rw [isSentinel_iff cfg (Nat.lt_of_le_of_lt (Nat.min_le_right _ _) cfg.cap_lt_stride)]
    omega
  have hl := hlists.perm ((List.Perm.swap _ _ _).cons _)
  simp only [reserved, word_div_two cfg hf, word_mod_two cfg hf, decodeIndex_eq cfg hlt,
    reserveIndex_eq, hsent, if_true]
  exact ⟨_, rfl, hl.nodup, hl.linked, hl.allocated⟩

/-- **The producer crosses the boundary.**  The chain from `producer.block` on is `spine`,
with any number of spare successors (one at least if the flag is set); `blocks` is what
earlier attempts left, and the freelist and the allocator answer in any way.  After
provisioning, the blocks that can be reached and those that are held have more than
`src.length` slots behind the current offset.  If the range reaches the sentinel, the
call runs through `advance_producer`, so it follows no null link: it links the held list
once, behind the last block of the chain, and stores the block and the index of the slot
`src.length` slots further on, with the flag if and only if that block has a successor.
The indices are numbers here: the stored one is that of the code only where it fits a
word. -/
theorem producer_advances {s₁ : Shared T} {src src₁ : List T} {blocks₁ cache : List Addr}
    {off f index : ℕ} {block : Option Addr} (hlists : Lists s [blocks, cache, spine])
    (hcache : Cached s cache) (hspine : spine ≠ []) (hoff : off < cfg.cap) (hf : f < 2)
    (hflag : f = 1 → 2 ≤ spine.length) (hread : s.producerIndex = cfg.word k off f)
    (hprov : Provides cfg t (s, .wLoop src (cfg.word k off f) spine.head? blocks)
      (s₁, .wCas src₁ index block blocks₁)) :
    off + src.length < (spine.length + blocks₁.length) * cfg.cap ∧
    (cfg.cap ≤ off + src.length → ∃ z i ridx s', spine.getLast? = some z ∧
      Runs cfg t (s₁, .wCas src₁ index block blocks₁)
        [.link z blocks₁.head?, .block (spine ++ blocks₁)[i]?,
          .index (2 * ridx + flagAt (spine ++ blocks₁) i)]
        (s', .wSeg ⟨src, 0, spine.head?, off / cfg.ns, off % cfg.ns, []⟩) ∧
      Later cfg (cfg.stride * k + off) src.length ridx ∧
      ridx / cfg.stride = k + i ∧ i < (spine ++ blocks₁).length ∧
      s'.producerBlock = (spine ++ blocks₁)[i]? ∧
      s'.producerIndex = 2 * ridx + flagAt (spine ++ blocks₁) i ∧
      Linked s' (spine ++ blocks₁)) := by
  obtain ⟨rfl, rfl, rfl, cache', hp, _⟩ :=
    provided hlists hcache hspine hoff hf hflag hread hprov (by simp)
  refine ⟨hp.room, fun hfull => ?_⟩
  have hlt := Nat.lt_trans hoff cfg.cap_lt_stride
  have hpos : 0 < spine.length := List.length_pos_of_ne_nil hspine
  have hlen : (spine ++ blocks₁).length = spine.length + blocks₁.length := List.length_append
  -- the reservation installs the sentinel
  obtain ⟨s₂, hreserved, hs₂⟩ :=
    reserved_sentinel (t := t) (k := k) hoff hf hfull hp.lists
  have hcas : step cfg t .run s₁ (.wCas src₁ (cfg.word k off f) spine.head? blocks₁) =
      some (s₂, .apFind ⟨src₁, 0, spine.head?, off / cfg.ns, off % cfg.ns, []⟩ k spine.head?
        blocks₁) := by
    simp only [step, if_pos hp.index, hreserved]
  obtain ⟨z, hz, hfind⟩ := find_exec cfg t ⟨src₁, 0, spine.head?, off / cfg.ns, off % cfg.ns, []⟩
    k blocks₁ (hs₂.linked spine (by simp)) hpos
  rw [← List.head?_eq_getElem?] at hfind
  -- the held list becomes the end of the chain
  have hchain : Linked { s₂.modBlock z (·.setNext blocks₁.head?) with
      linked := s₂.linked ++ blocks₁ } (spine ++ blocks₁) :=
    (hs₂.join hz).linked _ (by simp)
  have hat : AtBlock cfg (⟨⟨src₁, 0, spine.head?, off / cfg.ns, off % cfg.ns, []⟩, k,
      off / cfg.ns * cfg.ns + off % cfg.ns, src₁.length, spine.head?, 0⟩ : Advance T)
      (spine ++ blocks₁) (off + src₁.length) 0 := by
    refine ⟨?_, rfl, ?_, ?_, ?_⟩
    · rw [List.head?_eq_getElem?, List.getElem?_append_left hpos]
    · show 0 * cfg.cap + (off / cfg.ns * cfg.ns + off % cfg.ns + src₁.length) = _
      rw [cfg.vblock_offset]
      omega
    · show off / cfg.ns * cfg.ns + off % cfg.ns < cfg.cap
      rw [cfg.vblock_offset]
      exact hoff
    · rw [hlen]
      exact hp.room
  obtain ⟨a', hwalk, hend⟩ := hat.exec (t := t) hchain
  have hi : (off + src₁.length) / cfg.cap < (spine ++ blocks₁).length := by
    rw [Nat.div_lt_iff_lt_mul cfg.cap_pos, hlen]
    exact hp.room
  have hmod : (off + src₁.length) % cfg.cap < cfg.cap := Nat.mod_lt _ cfg.cap_pos
  have hstore := hend.exec (t := t) hchain hi
  have hlinked : step cfg t .run s₂ (.apLink ⟨src₁, 0, spine.head?, off / cfg.ns, off % cfg.ns, []⟩
      k z blocks₁) = some ({ s₂.modBlock z (·.setNext blocks₁.head?) with
        linked := s₂.linked ++ blocks₁ }, .apWalk ⟨⟨src₁, 0, spine.head?, off / cfg.ns,
          off % cfg.ns, []⟩, k, off / cfg.ns * cfg.ns + off % cfg.ns, src₁.length,
          spine.head?, 0⟩) :=
    rfl
  refine ⟨z, (off + src₁.length) / cfg.cap, cfg.stride * (k + (off + src₁.length) / cfg.cap) +
    (off + src₁.length) % cfg.cap, _, hz,
    .silent hcas rfl (Exec.after hfind (.shown hlinked rfl (Exec.after hwalk hstore))),
    ?_, ?_, hi, rfl, rfl, ?_⟩
  · refine later_of_eq cfg (Nat.le_of_lt hoff) hmod ?_
    have := Nat.div_add_mod (off + src₁.length) cfg.cap
    rw [Nat.add_mul, Nat.mul_comm (_ / _)]
    omega
  · exact ridx_div_stride cfg (Nat.lt_trans hmod cfg.cap_lt_stride)
  · exact hchain

end Producer

/-- One slot per block. -/
def oneSlot : Config := ⟨1, 1, by decide, by decide⟩

/-- Two values on a new queue: two blocks are provisioned and linked. -/
theorem producer_advances_one_slot : ∃ s₁ blocks₁,
    Provides oneSlot 0 ((Shared.new : Shared ℕ), .wLoop [7, 8] 0 (some 0) [])
      (s₁, .wCas [7, 8] 0 (some 0) blocks₁) ∧
    0 + 2 < ([0].length + blocks₁.length) * oneSlot.cap ∧
    ∃ z i ridx s', [0].getLast? = some z ∧
      Runs oneSlot 0 (s₁, .wCas [7, 8] 0 (some 0) blocks₁)
        [.link z blocks₁.head?, .block ([0] ++ blocks₁)[i]?,
          .index (2 * ridx + flagAt ([0] ++ blocks₁) i)]
        (s', .wSeg ⟨[7, 8], 0, some 0, 0, 0, []⟩) ∧
      Later oneSlot 0 2 ridx ∧ ridx / oneSlot.stride = 0 + i := by
  have hlists : Lists (Shared.new : Shared ℕ) [[], [], [0]] := by
    refine ⟨by decide, fun l hl => ?_, fun a ha => ?_⟩
    · simp only [List.mem_cons, List.not_mem_nil, or_false] at hl
      rcases hl with rfl | rfl | rfl
      · rfl
      · rfl
      · exact ⟨rfl, rfl⟩
    · obtain rfl : a = 0 := by simpa using ha
      rfl
  obtain ⟨s₁, blocks₁, hprov⟩ : ∃ s₁ blocks₁,
      Provides oneSlot 0 ((Shared.new : Shared ℕ), .wLoop [7, 8] 0 (some 0) [])
        (s₁, .wCas [7, 8] 0 (some 0) blocks₁) := by
    refine ⟨_, _, .head ⟨by simp, .run, rfl⟩ (.head ⟨?_, .run, rfl⟩ (.head ⟨?_, .alloc 1, rfl⟩
      (.head ⟨?_, .run, rfl⟩ (.head ⟨?_, .alloc 2, rfl⟩ .refl))))⟩ <;>
    · rintro src index block blocks ⟨⟩
  obtain ⟨hroom, hfull⟩ := @producer_advances ℕ oneSlot 0 Shared.new [0] [] 0 s₁ [7, 8] [7, 8]
    blocks₁ [] 0 0 0 (some 0) hlists (.inl rfl) (by simp) (by decide) (by decide)
    (by decide) rfl hprov
  obtain ⟨z, i, ridx, s', hz, hrun, hlater, htok, _⟩ := hfull (by decide)
  exact ⟨s₁, blocks₁, hprov, hroom, z, i, ridx, s', hz, hrun, hlater, htok⟩

/-! ## `advance_consumer` -/

section Consumer

variable {r : Read T} {chain : List Addr} {k off pk poff i : ℕ}

/-- The walk has claimed the slots from offset `off` of block `k` to offset `o` of block
`k + i`, and `blk` is this block. -/
structure Claiming (cfg : Config) (r : Read T) (chain : List Addr) (blk : Option Addr)
    (k off i o : ℕ) : Prop where
  len : k * cfg.cap + off + r.len = (k + i) * cfg.cap + o
  le : r.len ≤ r.cap
  blk : blk = chain[i]?

/-- No subtraction goes below zero. -/
def NoUnderflow (l : List Event) : Prop := ∀ a b, Event.sub a b ∈ l → b ≤ a

/-- What `advance_consumer` leaves: `r.len` slots are claimed in all, and the head is
stored with the flag `f`. -/
structure Claimed (cfg : Config) (t : Tid) (s : Shared T) (pc : Pc T) (r : Read T)
    (chain : List Addr) (k off pk poff : ℕ) (l : List Event) (s' : Shared T) (len i o f : ℕ) :
    Prop where
  run : Runs cfg t (s, pc) (l ++ [.block chain[i]?, .index (cfg.word (k + i) o f)])
    (s', .rSeg { r with len := len })
  subs : NoUnderflow l
  slot : o < cfg.cap
  count : (k + i) * cfg.cap + o = k * cfg.cap + off + len
  all : len = min r.cap (pk * cfg.cap + poff - (k * cfg.cap + off))
  flag : f = if k + i < pk then 1 else 0
  le : k + i ≤ pk
  block : s'.consumerBlock = chain[i]?
  index : s'.consumerIndex = cfg.word (k + i) o f

theorem store_exec (cfg : Config) (t : Tid) (s : Shared T) (r : Read T) (newIndex : ℕ)
    (blk : Option Addr) :
    ∃ s', Runs cfg t (s, .acBlock r newIndex blk) [.block blk, .index newIndex] (s', .rSeg r) ∧
      s'.consumerBlock = blk ∧ s'.consumerIndex = newIndex :=
  ⟨_, .shown rfl rfl (.shown rfl rfl (.refl _)), rfl, rfl⟩

/-- Behind a sentinel comes the next block. -/
theorem skip_exec {blk : Option Addr} {newIndex : ℕ}
    (h : Claiming cfg r chain blk k off i cfg.cap) (hlink : Linked s chain)
    (hidx : newIndex / 2 = cfg.stride * (k + i) + cfg.cap) (hlt : k + i < pk)
    (hpoff : poff < cfg.cap) (hi : i + 1 < chain.length) :
    Runs cfg t (s, .acLoop r newIndex (cfg.stride * pk + poff) blk) []
      (s, .acLoop r (2 * (cfg.stride * (k + (i + 1)) + 0) + 1) (cfg.stride * pk + poff)
        chain[i + 1]?) := by
  obtain ⟨a, hget⟩ : ∃ a, chain[i]? = some a := ⟨_, List.getElem?_eq_getElem (by omega)⟩
  have hne : k + i ≠ pk := Nat.ne_of_lt hlt
  have hsent : isSentinel cfg (cfg.stride * (k + i) + cfg.cap) = true :=
    (isSentinel_iff cfg cfg.cap_lt_stride).mpr (Nat.le_refl _)
  have hloop : step cfg t .run s (.acLoop r newIndex (cfg.stride * pk + poff) blk) =
      some (s, .acNext r newIndex (cfg.stride * pk + poff) blk) := by
    simp only [step, advanceLoop, hidx, ridx_div cfg cfg.cap_lt_stride,
      ridx_div cfg (Nat.lt_trans hpoff cfg.cap_lt_stride), if_neg hne, hsent, if_true]
  have hevents : loopSubs cfg r newIndex (cfg.stride * pk + poff) = [] := by
    simp only [loopSubs, hidx, ridx_div cfg cfg.cap_lt_stride,
      ridx_div cfg (Nat.lt_trans hpoff cfg.cap_lt_stride), if_neg hne, hsent, if_true]
  have hnext : step cfg t .run s (.acNext r newIndex (cfg.stride * pk + poff) blk) =
      some (s, .acLoop r (2 * (cfg.stride * (k + (i + 1)) + 0) + 1) (cfg.stride * pk + poff)
        chain[i + 1]?) := by
    have hfar : newIndex / 2 + cfg.ns = cfg.stride * (k + (i + 1)) + 0 := by
      rw [hidx, ← Nat.add_assoc k, Nat.mul_succ, cfg.stride_eq]
      omega
    simp only [step, deref, h.blk, hget, hfar]
    rw [show (s.heap a).next = chain[i + 1]? from path_next hlink hget]
  exact .silent hloop hevents (.silent hnext rfl (.refl _))

/-- **The walk from the start of a block terminates**, by induction on the blocks in front
of the snapshot. -/
theorem walk_exec {blk : Option Addr} {newIndex : ℕ} (h : Claiming cfg r chain blk k off i 0)
    (hlink : Linked s chain) (hidx : newIndex / 2 = cfg.stride * (k + i) + 0) (hle : k + i ≤ pk)
    (hpoff : poff < cfg.cap) (hlen : pk < k + chain.length) :
    ∃ l s' len i' o f, Claimed cfg t s (.acLoop r newIndex (cfg.stride * pk + poff) blk) r chain
      k off pk poff l s' len i' o f := by
  have hpos := cfg.cap_pos
  have hstride := cfg.stride_pos
  have hp := Nat.lt_trans hpoff cfg.cap_lt_stride
  have hcount := h.len
  have hroom := h.le
  induction hn : pk - (k + i) generalizing r i blk newIndex with
  | zero =>
    -- the block of the snapshot: up to the snapshot
    obtain rfl : k + i = pk := by omega
    obtain rfl := h.blk
    have hsub : cfg.stride * (k + i) + poff - (cfg.stride * (k + i) + 0) = poff := by omega
    have hloop : step cfg t .run s (.acLoop r newIndex (cfg.stride * (k + i) + poff) chain[i]?) =
        some (s, .acBlock { r with len := r.len + min (r.cap - r.len) poff }
          (cfg.word (k + i) (min (r.cap - r.len) poff) 0) chain[i]?) := by
      simp only [step, advanceLoop, hidx, ridx_div cfg hstride, ridx_div cfg hp, if_true, hsub]
      rfl
    have hevents : loopSubs cfg r newIndex (cfg.stride * (k + i) + poff) =
        [.sub r.cap r.len, .sub (cfg.stride * (k + i) + poff) (cfg.stride * (k + i) + 0),
          .sub (cfg.stride * (k + i) + 0 + min (r.cap - r.len) poff)
            (cfg.stride * (k + i) + 0)] := by
      simp only [loopSubs, hidx, ridx_div cfg hstride, ridx_div cfg hp, if_true, hsub]
    obtain ⟨s', hrun, hblock, hindex⟩ := store_exec cfg t s
      { r with len := r.len + min (r.cap - r.len) poff }
      (cfg.word (k + i) (min (r.cap - r.len) poff) 0) chain[i]?
    have hrun' : Runs cfg t (s, .acLoop r newIndex (cfg.stride * (k + i) + poff) chain[i]?) _ _ :=
      Exec.emits hloop hevents hrun
    refine ⟨_, s', r.len + min (r.cap - r.len) poff, i, min (r.cap - r.len) poff, 0,
      ⟨hrun', ?_, ?_, ?_, ?_, ?_, hle, hblock, hindex⟩⟩
    · intro a b hab
      simp only [List.mem_cons, Event.sub.injEq, List.not_mem_nil, or_false] at hab
      omega
    · omega
    · omega
    · omega
    · rw [if_neg (by omega)]
  | succ n ih =>
    have hlt : k + i < pk := by omega
    obtain rfl := h.blk
    have hne : k + i ≠ pk := Nat.ne_of_lt hlt
    have hmul := token_mul_le cfg hlt
    have hsent : isSentinel cfg (cfg.stride * (k + i) + 0) = false :=
      (isSentinel_eq_false_iff cfg hstride).mpr hpos
    have hevents : loopSubs cfg r newIndex (cfg.stride * pk + poff) = [.sub r.cap r.len] := by
      simp only [loopSubs, hidx, ridx_div cfg hstride, ridx_div cfg hp, if_neg hne, hsent,
        Bool.false_eq_true, if_false]
    have hsubs : NoUnderflow [.sub r.cap r.len] := by
      intro a b hab
      simp only [List.mem_singleton, Event.sub.injEq] at hab
      omega
    by_cases hpart : r.cap - r.len < cfg.cap
    · -- the request ends in this block
      have hmin : min (r.cap - r.len) cfg.cap = r.cap - r.len := by omega
      have hloop : step cfg t .run s (.acLoop r newIndex (cfg.stride * pk + poff) chain[i]?) =
          some (s, .acBlock { r with len := r.len + (r.cap - r.len) }
            (cfg.word (k + i) (r.cap - r.len) 1) chain[i]?) := by
        simp only [step, advanceLoop, hidx, ridx_div cfg hstride, ridx_div cfg hp, if_neg hne,
          hsent, Bool.false_eq_true, if_false, hmin, if_pos hpart]
        rfl
      obtain ⟨s', hrun, hblock, hindex⟩ := store_exec cfg t s
        { r with len := r.len + (r.cap - r.len) } (cfg.word (k + i) (r.cap - r.len) 1)
        chain[i]?
      have hrun' : Runs cfg t (s, .acLoop r newIndex (cfg.stride * pk + poff) chain[i]?) _ _ :=
        Exec.emits hloop hevents hrun
      refine ⟨_, s', r.len + (r.cap - r.len), i, r.cap - r.len, 1,
        ⟨hrun', hsubs, hpart, ?_, ?_, ?_, hle, hblock, hindex⟩⟩
      · omega
      · omega
      · rw [if_pos hlt]
    · -- the whole block, and on behind its sentinel
      have hmin : min (r.cap - r.len) cfg.cap = cfg.cap := by omega
      have hloop : step cfg t .run s (.acLoop r newIndex (cfg.stride * pk + poff) chain[i]?) =
          some (s, .acLoop { r with len := r.len + cfg.cap }
            (2 * (cfg.stride * (k + i) + 0 + cfg.cap) + 1) (cfg.stride * pk + poff)
            chain[i]?) := by
        simp only [step, advanceLoop, hidx, ridx_div cfg hstride, ridx_div cfg hp, if_neg hne,
          hsent, Bool.false_eq_true, if_false, hmin, Nat.lt_irrefl]
      have hskip : Claiming cfg { r with len := r.len + cfg.cap } chain chain[i]? k off i cfg.cap :=
        ⟨show k * cfg.cap + off + (r.len + cfg.cap) = _ by omega,
          show r.len + cfg.cap ≤ r.cap by omega, h.blk⟩
      have hcount' : k * cfg.cap + off + (r.len + cfg.cap) = (k + (i + 1)) * cfg.cap + 0 := by
        rw [← Nat.add_assoc k, Nat.succ_mul]
        omega
      have hon :
          Claiming cfg { r with len := r.len + cfg.cap } chain chain[i + 1]? k off (i + 1) 0 :=
        ⟨hcount', hskip.le, rfl⟩
      obtain ⟨l, s', len, i', o, f, hc⟩ := ih hon
        (show (2 * (cfg.stride * (k + (i + 1)) + 0) + 1) / 2 = _ by omega) (by omega) hcount'
        hskip.le (by omega)
      have hhalf : (2 * (cfg.stride * (k + i) + 0 + cfg.cap) + 1) / 2 =
          cfg.stride * (k + i) + cfg.cap := by omega
      have hbehind := skip_exec (t := t) hskip hlink hhalf hlt hpoff (by omega)
      have hrun : Runs cfg t (s, .acLoop r newIndex (cfg.stride * pk + poff) chain[i]?)
          (.sub r.cap r.len :: (l ++ [.block chain[i']?, .index (cfg.word (k + i') o f)]))
          (s', .rSeg { r with len := len }) :=
        Exec.shown hloop hevents (Exec.after hbehind hc.run)
      refine ⟨.sub r.cap r.len :: l, s', len, i', o, f, { hc with run := hrun, subs := ?_ }⟩
      intro a b hab
      rcases List.mem_cons.mp hab with heq | hab
      · exact hsubs a b (heq ▸ List.mem_singleton_self _)
      · exact hc.subs a b hab

/-- The packed index a consumer installs for `cap` slots from `index` on: what the flag
promises, or what one reading of `producer.index` allows. -/
def Reserves (cfg : Config) (k off f cap newIndex : ℕ) : Prop :=
  newIndex = reserveIndex cfg k (off / cfg.ns) (off % cfg.ns) cap f ∨
  ∃ pidx, newIndex = clampIndex cfg (reserveIndex cfg k (off / cfg.ns) (off % cfg.ns) cap f) k pidx

/-- A reservation that reaches a sentinel reaches the one of its block, and the request
is at least as long as the rest of the block. -/
theorem Reserves.sentinel {f cap newIndex : ℕ} (h : Reserves cfg k off f cap newIndex)
    (hf : f < 2) (hsent : isSentinel cfg (newIndex / 2) = true) :
    newIndex / 2 = cfg.stride * k + cfg.cap ∧ cfg.cap ≤ off + cap := by
  have hmin : min (off + cap) cfg.cap < cfg.stride :=
    Nat.lt_of_le_of_lt (Nat.min_le_right _ _) cfg.cap_lt_stride
  rcases h with rfl | ⟨pidx, rfl⟩
  · rw [reserveIndex_eq, word_div_two cfg hf] at hsent ⊢
    have := (isSentinel_iff cfg hmin).mp hsent
    omega
  · rw [reserveIndex_eq] at hsent ⊢
    unfold clampIndex at hsent ⊢
    split at hsent
    · rename_i htok
      rw [if_pos htok]
      -- the reading lies in the same block
      obtain ⟨hsplit, hplt⟩ := ridx_split cfg pidx
      rw [← htok] at hsplit
      have hword : min (cfg.word k (min (off + cap) cfg.cap) f) (2 * pidx) / 2 =
          cfg.stride * k + min (min (off + cap) cfg.cap) (pidx % cfg.stride) := by
        unfold Config.word
        omega
      rw [hword, Nat.mul_div_cancel_left _ (by decide)] at hsent ⊢
      have := (isSentinel_iff cfg (Nat.lt_of_le_of_lt (Nat.min_le_left _ _) hmin)).mp hsent
      omega
    · rename_i htok
      rw [if_neg htok]
      rw [word_div_two cfg hf, Nat.mul_add_div (by decide), Nat.add_zero] at hsent ⊢
      have := (isSentinel_iff cfg hmin).mp hsent
      omega

/-- **The consumer crosses the boundary.**  A claim of at most `cap` slots from slot `off` of
block `k` on has reached the sentinel of the block, and `producer.index` is read at slot
`poff` of a later block `pk`; `chain` are the blocks from the consumer's on.  The call
runs through `advance_consumer`, with no subtraction below zero: it claims `cap` slots or
all up to the snapshot, and stores the index of the slot so many slots further on and the
block of its token, with the flag if and only if the token is before the snapshot's. -/
theorem consumer_advances {cap f pf newIndex : ℕ} {block : Option Addr}
    (hlink : Linked s chain) (hblock : block = chain.head?) (hoff : off < cfg.cap) (hf : f < 2)
    (hread : s.consumerIndex = cfg.word k off f) (hnew : Reserves cfg k off f cap newIndex)
    (hsent : isSentinel cfg (newIndex / 2) = true)
    (hsnap : s.producerIndex = cfg.word pk poff pf) (hpf : pf < 2) (hpoff : poff < cfg.cap)
    (hlater : k < pk) (hreach : pk < k + chain.length) :
    ∃ l ridx i r s', Runs cfg t (s, .rCas cap (cfg.word k off f) block newIndex)
        (l ++ [.block chain[i]?, .index (2 * ridx + if ridx / cfg.stride < pk then 1 else 0)])
        (s', .rSeg r) ∧
      NoUnderflow l ∧
      r.len = min cap (slotsBefore cfg (cfg.stride * pk + poff) -
        slotsBefore cfg (cfg.stride * k + off)) ∧
      Later cfg (cfg.stride * k + off) r.len ridx ∧
      ridx / cfg.stride = k + i ∧ k + i ≤ pk ∧
      s'.consumerBlock = chain[i]? ∧
      s'.consumerIndex = 2 * ridx + if ridx / cfg.stride < pk then 1 else 0 := by
  obtain ⟨hidx, hcap⟩ := hnew.sentinel hf hsent
  have hlt := Nat.lt_trans hoff cfg.cap_lt_stride
  have hp := Nat.lt_trans hpoff cfg.cap_lt_stride
  -- the claim, with what is left of the block
  obtain ⟨s₁, hcas, hprod, hheap⟩ : ∃ s₁, step cfg t .run s
      (.rCas cap (cfg.word k off f) block newIndex) =
        some (s₁, .acLoad ⟨cap, cfg.cap - off, [], 0, k, block, off / cfg.ns, off % cfg.ns⟩
          newIndex) ∧ s₁.producerIndex = s.producerIndex ∧ s₁.heap = s.heap := by
    have hlen : cfg.stride * k + cfg.cap - (cfg.stride * k + off) = cfg.cap - off := by omega
    rw [hidx] at hsent
    simp only [step, if_pos hread, claimed, word_div_two cfg hf, decodeIndex_eq cfg hlt, hidx,
      hsent, if_true, hlen]
    exact ⟨_, rfl, rfl, rfl⟩
  have hlink₁ : Linked s₁ chain := by
    unfold Linked Shared.next
    rw [hheap]
    exact hlink
  have hload : step cfg t .run s₁ (.acLoad ⟨cap, cfg.cap - off, [], 0, k, block, off / cfg.ns,
      off % cfg.ns⟩ newIndex) = some (s₁, .acLoop ⟨cap, cfg.cap - off, [], 0, k, block,
        off / cfg.ns, off % cfg.ns⟩ newIndex (cfg.stride * pk + poff) block) := by
    have hne : ¬ (pk = k ∨ isSentinel cfg (cfg.stride * pk + poff) = true) := by
      rintro (h | h)
      · omega
      · have := (isSentinel_iff cfg hp).mp h
        omega
    simp only [step, hprod, hsnap, word_div_two cfg hpf, ridx_div cfg hp, if_neg hne]
  have hfirst : Claiming cfg (⟨cap, cfg.cap - off, [], 0, k, block, off / cfg.ns, off % cfg.ns⟩ :
      Read T) chain block k off 0 cfg.cap := by
    refine ⟨?_, ?_, ?_⟩
    · show k * cfg.cap + off + (cfg.cap - off) = (k + 0) * cfg.cap + cfg.cap
      rw [Nat.add_zero]
      omega
    · show cfg.cap - off ≤ cap
      omega
    · rw [← List.head?_eq_getElem?]
      exact hblock
  have hskip := skip_exec (t := t) hfirst hlink₁ (by rw [hidx, Nat.add_zero])
    (by omega : k + 0 < pk) hpoff (by omega)
  have hstart : Claiming cfg (⟨cap, cfg.cap - off, [], 0, k, block, off / cfg.ns, off % cfg.ns⟩ :
      Read T) chain chain[0 + 1]? k off (0 + 1) 0 := by
    refine ⟨?_, hfirst.le, rfl⟩
    have := hfirst.len
    rw [← Nat.add_assoc k, Nat.succ_mul]
    omega
  have hhalf : (2 * (cfg.stride * (k + (0 + 1)) + 0) + 1) / 2 = cfg.stride * (k + (0 + 1)) + 0 := by
    omega
  obtain ⟨l, s', len, i, o, fl, hc⟩ := walk_exec (t := t) hstart hlink₁ hhalf (by omega) hpoff
    hreach
  have ho := Nat.lt_trans hc.slot cfg.cap_lt_stride
  have htok : (cfg.stride * (k + i) + o) / cfg.stride = k + i := ridx_div_stride cfg ho
  have hword : cfg.word (k + i) o fl = 2 * (cfg.stride * (k + i) + o) +
      if (cfg.stride * (k + i) + o) / cfg.stride < pk then 1 else 0 := by
    rw [htok, ← hc.flag]
    rfl
  refine ⟨l, cfg.stride * (k + i) + o, i,
    ⟨cap, len, [], 0, k, block, off / cfg.ns, off % cfg.ns⟩, s', ?_, hc.subs, ?_, ?_, htok, hc.le,
    hc.block, ?_⟩
  · rw [← hword]
    exact Exec.silent hcas rfl (Exec.silent hload rfl (Exec.after hskip hc.run))
  · rw [slotsBefore_eq cfg (Nat.le_of_lt hpoff), slotsBefore_eq cfg (Nat.le_of_lt hoff)]
    exact hc.all
  · exact later_of_eq cfg (Nat.le_of_lt hoff) hc.slot hc.count
  · rw [← hword]
    exact hc.index

end Consumer

/-- Three blocks of one slot, two of them filled, before anything is consumed. -/
def twoFilled : Shared ℕ :=
  { (Shared.new : Shared ℕ) with
    producerBlock := some 2
    producerIndex := oneSlot.word 2 0 0
    consumerIndex := oneSlot.word 0 0 1
    heap := fun a => if a < 2 then Block.new.setNext (some (a + 1)) else Block.new }

/-- A request for five values claims the two that are there. -/
theorem consumer_advances_one_slot : ∃ (l : List Event) (ridx i : ℕ) (r : Read ℕ) (s' : Shared ℕ),
    Runs oneSlot 0 (twoFilled, .rCas 5 (oneSlot.word 0 0 1) (some 0) (oneSlot.word 0 1 1))
      (l ++ [.block [0, 1, 2][i]?, .index (2 * ridx + if ridx / oneSlot.stride < 2 then 1 else 0)])
      (s', .rSeg r) ∧ NoUnderflow l ∧ r.len = 2 ∧ Later oneSlot 0 r.len ridx := by
  have hlink : Linked twoFilled [0, 1, 2] := ⟨rfl, rfl, rfl, rfl⟩
  obtain ⟨l, ridx, i, r, s', hrun, hsubs, hlen, hlater, _⟩ :=
    @consumer_advances ℕ oneSlot 0 twoFilled [0, 1, 2] 0 0 2 0 5 1 0 (oneSlot.word 0 1 1) (some 0)
      hlink rfl (by decide) (by decide) rfl (.inl rfl) (by decide) rfl (by decide) (by decide)
      (by decide) (by decide)
  refine ⟨l, ridx, i, r, s', hrun, hsubs, ?_, hlater⟩
  rw [hlen, slotsBefore_eq oneSlot (by decide), slotsBefore_eq oneSlot (by decide)]
  rfl

end V8
