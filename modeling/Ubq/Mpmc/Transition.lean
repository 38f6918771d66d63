/-
# The block transition of `push_batch`

A reservation that reaches the end of its block holds `phead` locked, links the
blocks that the call has kept ready, and publishes the head behind its range; then
it walks over the slots it has reserved.  Here this part of the call is run alone
(nobody else moves `phead` or the links in front of it), from any chain with any
number of spare successors and any private blocks that `grow_to_fit_with` leaves.

A run shows the links it makes, the head it publishes and the slots it visits
(`Event`).  `AtBoundary.exec` and `OnRange.exec` run the transition loop and the slot
loop to their ends.
-/
import Ubq.Exec
import Ubq.Mpmc.Push

namespace Mpmc

/-! ## What a run shows -/

/-- What a run shows. -/
inductive Event
  /-- A successor is stored in a block that had none. -/
  | link (block : Option Addr) (next : Addr)
  /-- The head behind the range is stored. -/
  | publish (phead : Head)
  /-- A reserved slot is written or skipped. -/
  | slot (block : Option Addr) (index : ℕ)

section Code

variable {T : Type*}

/-- What the next step shows. -/
def Pc.events : Pc T → List Event
  | .pLink w => w.root.head?.toList.map (.link w.block)
  | .pStore w next => [.publish ⟨w.block, w.index + w.remaining, next.isSome⟩]
  | .pWrite f _ => [.slot f.block f.index]
  | _ => []

/-- A run of thread `t` alone, with the events it shows. -/
def Runs (cfg : Config) (t : Tid) : Shared T × Pc T → List Event → Shared T × Pc T → Prop :=
  Exec (fun r => step cfg t .run r.1 r.2) fun r => r.2.events

/-- The private blocks are provisioned: the pool and the allocator are asked, in any
way the scheduler lets them answer. -/
def Grows (cfg : Config) (t : Tid) : Shared T × Pc T → Shared T × Pc T → Prop :=
  Relation.ReflTransGen fun r r' => (∀ p phead, r.2 ≠ .pCas p phead) ∧
    ∃ act, step cfg t act r.1 r.2 = some r'

end Code

variable {T : Type*} {cfg : Config} {t : Tid} {s s' : Shared T} {spine blocks : List Addr}

/-! ## Provisioning -/

/-- The call holds its private blocks, and nobody has moved `phead`. -/
structure Holds (spine : List Addr) (items : List (Option T)) (phead : Head) (s : Shared T)
    (p : Push T) : Prop where
  mem : Mem s spine p.blocks
  items : p.items = items
  phead : s.phead = phead

/-- What `grow_to_fit_with` keeps, from the top of the reservation loop on. -/
def Provisioning (cfg : Config) (spine : List Addr) (items : List (Option T)) (phead : Head)
    (s : Shared T) : Pc T → Prop
  | .pSwap p hd need => Holds spine items phead s p ∧ hd = phead ∧ need = pushNeed cfg p phead
  | .pAlloc p hd need => Holds spine items phead s p ∧ hd = phead ∧
      need = pushNeed cfg p phead ∧ p.blocks.length * cfg.bl < need
  | .pCas p hd => Holds spine items phead s p ∧ hd = phead ∧
      pushNeed cfg p phead ≤ p.blocks.length * cfg.bl
  | _ => False

variable {items : List (Option T)} {phead : Head}

/-- The private blocks have grown. -/
theorem grown_provisioning {p : Push T} (h : Holds spine items phead s p) :
    Provisioning cfg spine items phead s (grown cfg p phead (pushNeed cfg p phead)) := by
  unfold grown
  split
  · exact ⟨h, rfl, rfl, by assumption⟩
  · exact ⟨h, rfl, by omega⟩

/-- A step of `grow_to_fit_with` keeps the chain and adds to the private blocks. -/
theorem provisioning_step {pc : Pc T} (h : Provisioning cfg spine items phead s pc)
    (hcas : ∀ p hd, pc ≠ .pCas p hd) {act : Act T} {r : Shared T × Pc T}
    (hs : step cfg t act s pc = some r) : Provisioning cfg spine items phead r.1 r.2 := by
  cases pc with
  | pSwap p hd need =>
    obtain ⟨h, rfl, rfl⟩ := h
    cases act with
    | run =>
      simp only [step, stepWith] at hs
      split at hs
      · cases hs
        exact grown_provisioning h
      · rename_i a ha
        have hmem := h.mem.swap ha
        obtain ⟨heap, heq⟩ := give_rest { s with pool := none } p.blocks [a]
        rw [heq] at hs hmem
        cases hs
        exact grown_provisioning (p := { p with blocks := p.blocks ++ [a] })
          ⟨hmem, h.items, h.phead⟩
    | call op => cases op <;> exact absurd hs (by simp [step, stepWith])
    | _ => simp [step, stepWith] at hs
  | pAlloc p hd need =>
    obtain ⟨h, rfl, rfl, hlt⟩ := h
    cases act with
    | alloc as =>
      simp only [step, stepWith] at hs
      split at hs
      · rename_i hcond
        obtain ⟨hlen, hnd, hfree⟩ := hcond
        have henough := le_divCeil_mul (pushNeed cfg p hd - p.blocks.length * cfg.bl) cfg.bl_pos
        rw [← hlen] at henough
        have hne : as ≠ [] := by
          rintro rfl
          simp only [List.length_nil, Nat.zero_mul] at henough
          omega
        have hmem := h.mem.grow hne hnd hfree
        obtain ⟨heap, heq⟩ := give_rest (s.newChain as) p.blocks as
        obtain ⟨_, _, hrest⟩ := (newChain_spec s hne hnd).rest
        rw [heq] at hs hmem
        cases hs
        refine ⟨⟨hmem, h.items, ?_⟩, rfl, ?_⟩
        · rw [hrest]
          exact h.phead
        · show pushNeed cfg p hd ≤ (p.blocks ++ as).length * cfg.bl
          rw [List.length_append, Nat.add_mul]
          omega
      · cases hs
    | call op => cases op <;> exact absurd hs (by simp [step, stepWith])
    | _ => simp [step, stepWith] at hs
  | pCas p hd => exact absurd rfl (hcas p hd)
  | _ => exact h.elim

/-- Provisioning ends with enough private blocks. -/
theorem provisioned {p p' : Push T} {hd : Head} (hmem : Mem s spine p.blocks)
    (hread : s.phead = phead) (hidx : phead.index < cfg.bl)
    (h : Grows cfg t (s, pushLoop cfg p phead) (s', .pCas p' hd)) :
    Holds spine p.items phead s' p' ∧ hd = phead ∧
      pushNeed cfg p' phead ≤ p'.blocks.length * cfg.bl := by
  have hstart : Provisioning cfg spine p.items phead s (pushLoop cfg p phead) := by
    unfold pushLoop
    rw [if_neg (by omega)]
    split
    · exact ⟨⟨hmem, rfl, hread⟩, rfl, rfl⟩
    · exact ⟨⟨hmem, rfl, hread⟩, rfl, by omega⟩
  have hrun : ∀ r, Grows cfg t (s, pushLoop cfg p phead) r →
      Provisioning cfg spine p.items phead r.1 r.2 := by
    intro r hr
    induction hr with
    | refl => exact hstart
    | tail _ hstep ih =>
      obtain ⟨hcas, act, hs⟩ := hstep
      exact provisioning_step ih hcas hs
  exact hrun _ h

/-! ## The transition loop -/

/-- The private blocks end up in the chain, whole and with one link, or they are
handed back whole. -/
inductive Installed (spine blocks : List Addr) : List Event → List Addr → List Addr → Prop
  | linked {z b : Addr} (hz : spine.getLast? = some z) (hb : blocks.head? = some b) :
      Installed spine blocks [.link (some z) b] (spine ++ blocks) []
  | kept : Installed spine blocks [] spine blocks

variable {w : PushWalk T} {e j : ℕ}

/-- Where the transition loop ends: at the block the position `e` lies in. -/
structure Crossed (cfg : Config) (s s' : Shared T) (w w' : PushWalk T) (chain root : List Addr)
    (e k : ℕ) : Prop where
  here : AtBoundary cfg s' w' chain e k
  inside : w'.index + w'.remaining < cfg.bl
  root : w'.root = root
  same : w'.p = w.p ∧ w'.phead = w.phead
  arena : s'.arena = s.arena ∧ s'.pool = s.pool

/-- **The transition loop terminates**, by induction on the blocks in front of it. -/
theorem AtBoundary.exec (h : AtBoundary cfg s w spine e j) :
    ∃ links chain root s' w' k, Runs cfg t (s, .pNext w) links (s', .pStore w' chain[k + 1]?) ∧
      Installed spine w.root links chain root ∧ Crossed cfg s s' w w' chain root e k := by
  induction hn : spine.length + w.root.length - j generalizing s w spine j with
  | zero =>
    have := h.lt
    omega
  | succ n ih =>
    have hlt := h.lt
    by_cases hj : j + 1 < spine.length
    · -- the successor is there
      have hstep := h.next (t := t)
      rw [if_pos hj] at hstep
      rcases h.on fun _ => hj with ⟨hin, hw⟩ | ⟨w', hw, h', hp, hph, hroot⟩
      · rw [hw] at hstep
        exact ⟨[], spine, w.root, s, w, j, .silent hstep rfl (.refl _), .kept,
          h, hin, rfl, ⟨rfl, rfl⟩, rfl, rfl⟩
      · rw [hw] at hstep
        obtain ⟨links, chain, root, s', w'', k, hrun, hinst, hc⟩ := ih h' (by rw [hroot]; omega)
        rw [hroot] at hinst
        exact ⟨links, chain, root, s', w'', k, .silent hstep rfl hrun, hinst, hc.here, hc.inside,
          hc.root, ⟨hc.same.1.trans hp, hc.same.2.trans hph⟩, hc.arena⟩
    · -- the private blocks become the successors
      have hlast : j + 1 = spine.length := by omega
      have hstep := h.next (t := t)
      rw [if_neg hj] at hstep
      obtain ⟨a, hget, hlink, h₁⟩ := h.link (t := t) hlast
      have hinst : Installed spine w.root (Pc.events (.pLink w)) (spine ++ w.root) [] := by
        have hz : spine.getLast? = w.block := by
          rw [List.getLast?_eq_getElem?, h.block]
          congr 1
          omega
        cases hr : w.root with
        | nil =>
          simp only [Pc.events, hr, List.head?_nil, Option.toList_none, List.map_nil,
            List.append_nil]
          exact .kept
        | cons b rest =>
          simp only [Pc.events, hr, List.head?_cons, Option.toList_some, List.map_cons,
            List.map_nil, h.block, hget]
          rw [h.block, hget] at hz
          exact .linked hz rfl
      rcases h₁.on fun hge => h₁.stays rfl hge with ⟨hin, hw⟩ | ⟨w', hw, h', hp, hph, hroot⟩
      · rw [hw] at hlink
        refine ⟨_, _, _, _, { w with root := [] }, j,
          .silent hstep rfl (.head hlink (.refl _)), ?_, h₁, hin, rfl, ⟨rfl, rfl⟩, rfl, rfl⟩
        rwa [List.append_nil]
      · rw [hw] at hlink
        have hroot' : w'.root = [] := hroot
        obtain ⟨links, chain, root, s', w'', k, hrun, hinst', hc⟩ := ih h' (by
          rw [hroot', List.length_append, List.length_nil]
          omega)
        -- no link is left to make
        rw [hroot'] at hinst'
        obtain ⟨rfl, rfl, rfl⟩ : links = [] ∧ chain = spine ++ w.root ∧ root = [] := by
          cases hinst' with
          | linked hz hb => cases hb
          | kept => exact ⟨rfl, rfl, rfl⟩
        refine ⟨_, _, _, s', w'', k, .silent hstep rfl (.head hlink hrun), ?_, hc.here, hc.inside,
          hc.root, ⟨hc.same.1.trans hp, hc.same.2.trans hph⟩, hc.arena⟩
        rwa [List.append_nil]

/-! ## The slot loop -/

/-- The slot at a position of the chain. -/
def slotAt (cfg : Config) (chain : List Addr) (q : ℕ) : Event :=
  .slot chain[q / cfg.bl]? (q % cfg.bl)

variable {f : Fill T} {chain : List Addr} {i : ℕ}

/-- One item goes to its slot; at the end of a block the successor is there. -/
theorem OnRange.write (h : OnRange cfg s f chain i) (hlt : f.done < f.p.items.length) :
    ∃ s' f', Runs cfg t (s, fillOn cfg f) [slotAt cfg chain (i + f.done)] (s', fillOn cfg f') ∧
      OnRange cfg s' f' chain i ∧ f'.p = f.p ∧ f'.done = f.done + 1 ∧ s'.phead = s.phead ∧
      s'.arena = s.arena ∧ s'.pool = s.pool ∧ ∀ l, Linked s l → Linked s' l := by
  obtain ⟨a, hget⟩ := h.get
  let s₁ := s.modBlock a
    fun b => b.setSlot f.index ((b.slots f.index).put (f.p.items[f.done]?).join)
  have hlinks : ∀ l, Linked s l → Linked s₁ l := fun l hl => hl.setSlot _ _
  have hwrite : ∀ next, step cfg t .run s (.pWrite f next) =
      some (s₁, fillOn cfg (f.advance cfg next)) := by
    intro next
    simp only [step, stepWith, deref, h.block, hget]
    rfl
  have hevent : ∀ next, (Pc.pWrite f next).events = [slotAt cfg chain (i + f.done)] := by
    intro next
    simp only [Pc.events, slotAt, h.block, h.index]
  -- before the last slot of a block the loop waits for the successor, which is there
  obtain ⟨next, hrun, hnext⟩ : ∃ next, Runs cfg t (s, fillOn cfg f)
      [slotAt cfg chain (i + f.done)] (s₁, fillOn cfg (f.advance cfg next)) ∧
      (f.index + 1 = cfg.bl → next = chain[(i + f.done) / cfg.bl + 1]?) := by
    unfold fillOn
    rw [if_pos hlt]
    by_cases hend : f.index + 1 = cfg.bl
    · obtain ⟨b, hb⟩ : ∃ b, chain[(i + f.done) / cfg.bl + 1]? = some b := by
        have hroom := h.room
        have hidx := h.index
        have hdm := Nat.div_add_mod (i + f.done) cfg.bl
        refine ⟨_, List.getElem?_eq_getElem ?_⟩
        by_contra hc
        have hmul := Nat.mul_le_mul_right cfg.bl (Nat.le_of_not_lt hc)
        rw [Nat.succ_mul, Nat.mul_comm (_ / _)] at hmul
        omega
      have hwait : step cfg t .run s (.pWait f) = some (s, .pWrite f (some b)) := by
        have hsucc : (s.heap a).next = some b := (path_next h.path hget).trans hb
        simp only [step, stepWith, deref, h.block, hget, hsucc]
      refine ⟨some b, ?_, fun _ => hb.symm⟩
      rw [if_pos hend]
      exact .silent hwait rfl (.shown (hwrite _) (hevent _) (.refl _))
    · refine ⟨none, ?_, fun hc => absurd hc hend⟩
      rw [if_neg hend]
      exact .shown (hwrite _) (hevent _) (.refl _)
  obtain ⟨hp, hd, hblock, hindex⟩ := h.advance hnext
  refine ⟨s₁, f.advance cfg next, hrun, ⟨hlinks _ h.path, hd ▸ hblock, hd ▸ hindex, ?_, ?_⟩, hp, hd,
    rfl, rfl, rfl, hlinks⟩
  · rw [hp, hd]
    exact hlt
  · rw [hp]
    exact h.room

/-- **The slot loop visits its range**, by induction on the items that are left. -/
theorem OnRange.exec (h : OnRange cfg s f chain i) :
    ∃ s', Runs cfg t (s, fillOn cfg f)
        ((List.range' f.done (f.p.items.length - f.done)).map fun k => slotAt cfg chain (i + k))
        (s', .pDrop f.p) ∧
      s'.phead = s.phead ∧ s'.arena = s.arena ∧ s'.pool = s.pool ∧
      ∀ l, Linked s l → Linked s' l := by
  induction hn : f.p.items.length - f.done generalizing s f with
  | zero =>
    refine ⟨s, ?_, rfl, rfl, rfl, fun l hl => hl⟩
    have hfill : fillOn cfg f = .pDrop f.p := by
      unfold fillOn
      rw [if_neg (by omega)]
    rw [hfill]
    exact .refl _
  | succ n ih =>
    obtain ⟨s₁, f₁, hrun, h₁, hp, hd, hph, har, hpo, hlinks⟩ := h.write (t := t) (by omega)
    obtain ⟨s₂, hrun₂, hph₂, har₂, hpo₂, hlinks₂⟩ := ih h₁ (by rw [hp, hd]; omega)
    rw [hp, hd] at hrun₂
    exact ⟨s₂, hrun.trans hrun₂, hph₂.trans hph, har₂.trans har, hpo₂.trans hpo,
      fun l hl => hlinks₂ l (hlinks l hl)⟩

/-! ## The whole transition -/

/-- The head behind a range that ends at position `e` of the chain. -/
def headAt (cfg : Config) (chain : List Addr) (e : ℕ) : Head :=
  ⟨chain[e / cfg.bl]?, e % cfg.bl, decide (e / cfg.bl + 1 < chain.length)⟩

/-- **The transition installs the successors and nothing else.**  The chain from `phead`
on is `spine`, with spare successors or without (one at least behind a hint); the
private blocks are what earlier attempts left and `grow_to_fit_with` has made of it.
If the range reaches the end of the block, the call runs through the transition and
the slot loop, so it follows no null link and terminates.  The private blocks are
linked whole, once, behind the last block of the chain, or handed back whole; the
head that is stored denotes the position right behind the range, with the hint if
and only if its block has a successor; the slots visited are those of the range. -/
theorem successors_installed {s₁ : Shared T} {p p₁ : Push T} {phead hd : Head}
    (hmem : Mem s spine p.blocks) (hread : s.phead = phead) (hopen : Open cfg spine phead)
    (hfull : cfg.bl ≤ phead.index + p.items.length)
    (hgrow : Grows cfg t (s, pushLoop cfg p phead) (s₁, .pCas p₁ hd)) :
    ∃ links chain root s', Installed spine p₁.blocks links chain root ∧
      Runs cfg t (s₁, .pCas p₁ hd)
        (links ++ .publish (headAt cfg chain (phead.index + p.items.length)) ::
          (List.range p.items.length).map fun k => slotAt cfg chain (phead.index + k))
        (s', .pDrop { p₁ with blocks := root }) ∧
      s'.phead = (headAt cfg chain (phead.index + p.items.length)).word cfg ∧
      (phead.index + p.items.length) / cfg.bl < chain.length ∧
      Linked s' chain ∧ Linked s' root ∧ s'.arena = s₁.arena ∧ s'.pool = s₁.pool := by
  obtain ⟨hold, rfl, hneed⟩ := provisioned hmem hread hopen.index hgrow
  have hidx := hopen.index
  have hpos := cfg.bl_pos
  have hspine : 0 < spine.length := List.length_pos_of_ne_nil hopen.ne
  have hlen : p₁.items.length = p.items.length := by rw [hold.items]
  -- the reservation locks the head
  have hcas : step cfg t .run s₁ (.pCas p₁ hd) = some (reserved cfg t s₁ p₁ hd) := by
    simp only [step, stepWith, if_pos hold.phead]
  have hpc : (reserved cfg t s₁ p₁ hd).2 = .pNext ⟨{ p₁ with blocks := [] }, hd, p₁.blocks,
      p₁.items.length, hd.block, hd.index⟩ := by
    show (if min (hd.index + p₁.items.length) cfg.bl = cfg.bl then _ else _) = _
    rw [if_pos (by omega)]
  have hat : AtBoundary cfg (reserved cfg t s₁ p₁ hd).1 ⟨{ p₁ with blocks := [] }, hd, p₁.blocks,
      p₁.items.length, hd.block, hd.index⟩ spine (hd.index + p.items.length) 0 := by
    refine ⟨{ hold.mem with }, ?_, hspine, hidx, ?_, hlen ▸ hopen.room hneed⟩
    · rw [← List.head?_eq_getElem?]
      exact hopen.block
    · rw [hlen, Nat.zero_mul, Nat.zero_add]
  obtain ⟨links, chain, root, s₂, w, k, hrun, hinst, hc⟩ := hat.exec (t := t)
  have hrest := hc.here.rest
  obtain ⟨hdiv, hmod⟩ : (hd.index + p.items.length) / cfg.bl = k ∧
      (hd.index + p.items.length) % cfg.bl = w.index + w.remaining := by
    rw [Nat.div_mod_unique hpos, ← hrest, Nat.mul_comm]
    have := hc.inside
    omega
  have hhead : (⟨w.block, w.index + w.remaining, (chain[k + 1]?).isSome⟩ : Head) =
      headAt cfg chain (hd.index + p.items.length) := by
    rw [headAt, hdiv, hmod, hc.here.block]
    congr 1
    rw [Bool.eq_iff_iff, decide_eq_true_iff, isSome_getElem?]
  -- the range starts in the first block of the chain
  have hstart : hd.block = chain[0]? := by
    have hfirst : spine[0]? = chain[0]? := by
      cases hinst with
      | linked hz hb => rw [List.getElem?_append_left hspine]
      | kept => rfl
    rw [← hfirst, ← List.head?_eq_getElem?]
    exact hopen.block
  have hroom : hd.index + p.items.length < chain.length * cfg.bl := by
    rw [← Nat.div_lt_iff_lt_mul hpos, hdiv]
    exact hc.here.lt
  have hstore : step cfg t .run s₂ (.pStore w chain[k + 1]?) =
      some ({ s₂ with phead := (headAt cfg chain (hd.index + p.items.length)).word cfg },
        fillOn cfg ⟨{ p₁ with blocks := root }, 0, hd.block, hd.index⟩) := by
    rw [← hhead, ← hc.root]
    simp only [step, stepWith, hc.same.1, hc.same.2]
  have hfill : OnRange cfg
      { s₂ with phead := (headAt cfg chain (hd.index + p.items.length)).word cfg }
      ⟨{ p₁ with blocks := root }, 0, hd.block, hd.index⟩ chain hd.index := by
    refine ⟨hc.here.mem.path, ?_, ?_, Nat.zero_le _, ?_⟩
    · rw [Nat.add_zero, Nat.div_eq_of_lt hidx]
      exact hstart
    · rw [Nat.add_zero, Nat.mod_eq_of_lt hidx]
    · rw [hlen]
      exact hroom
  obtain ⟨s', hrun', hph, har, hpo, hlinks⟩ := hfill.exec (t := t)
  refine ⟨links, chain, root, s', hinst, ?_, hph, ?_, hlinks _ hc.here.mem.path,
    hlinks _ (hc.root ▸ hc.here.mem.priv), har.trans hc.arena.1, hpo.trans hc.arena.2⟩
  · rw [Nat.sub_zero, hlen, ← List.range_eq_range'] at hrun'
    refine .silent hcas rfl ?_
    rw [show reserved cfg t s₁ p₁ hd = ((reserved cfg t s₁ p₁ hd).1, (reserved cfg t s₁ p₁ hd).2)
      from rfl, hpc]
    refine Exec.trans hrun (.shown hstore ?_ hrun')
    show [_] = [_]
    rw [hhead]
  · rw [hdiv]
    exact hc.here.lt

/-- A queue of blocks of two slots that has just got its first block. -/
def oneBlock : Shared ℕ :=
  { (Shared.new : Shared ℕ).newChain [100] with
    phead := Head.fromPtr (some 100), chead := Head.fromPtr (some 100), linked := [100] }

/-- Two items fill the first block: a second one is provisioned, linked and published. -/
theorem successors_installed_exact_fill :
    ∃ s₁ p₁ links chain root s',
      Grows twoSlots 0 (oneBlock, pushLoop twoSlots ⟨[some 7, some 8], .user [7, 8], []⟩
        oneBlock.phead) (s₁, .pCas p₁ oneBlock.phead) ∧
      Installed [100] p₁.blocks links chain root ∧
      Runs twoSlots 0 (s₁, .pCas p₁ oneBlock.phead)
        (links ++ .publish (headAt twoSlots chain 2) ::
          [slotAt twoSlots chain 0, slotAt twoSlots chain 1])
        (s', .pDrop { p₁ with blocks := root }) := by
  have hmem : Mem oneBlock [100] [] := by
    refine ⟨by decide, ⟨rfl, rfl⟩, rfl, ?_, ?_⟩
    · intro a ha
      obtain rfl : a = 100 := by simpa using ha
      rfl
    · intro a ha
      exact absurd ha (by simp [oneBlock, Shared.newChain, Shared.new])
  have hopen : Open twoSlots [100] oneBlock.phead :=
    ⟨rfl, by simp, by decide, fun h => absurd h (by decide)⟩
  obtain ⟨s₁, p₁, hgrow⟩ : ∃ s₁ p₁, Grows twoSlots 0
      (oneBlock, .pSwap ⟨[some 7, some 8], .user [7, 8], []⟩ oneBlock.phead 1)
      (s₁, .pCas p₁ oneBlock.phead) := by
    refine ⟨_, _, .head ⟨by simp, .run, rfl⟩ (.head ⟨?_, .alloc [101], rfl⟩ .refl)⟩
    rintro p hd ⟨⟩
  obtain ⟨links, chain, root, s', hinst, hrun, _⟩ :=
    successors_installed (p := ⟨[some 7, some 8], .user [7, 8], []⟩) hmem rfl hopen
      (by decide) hgrow
  exact ⟨s₁, p₁, links, chain, root, s', hgrow, hinst, hrun⟩

end Mpmc
