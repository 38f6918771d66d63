/-
# The invariant of the freelist

Every block has one `Site`.  `Inv` relates the sites to the shared state: the
lists in the variables of the threads, the cached chain, the allocator and the
history; `Local` says which blocks the running call of a thread has.  The
operations on memory that the calls are made of (`takeOut`, `putIn`, `alloc`,
`dealloc`, relinking, detaching, severing and pushing) each move a few blocks from
one site to another, and each has one lemma below.
-/
import Ubq.FreeList.Machine
import Mathlib.Data.List.Perm.Basic

namespace FreeList

open Function

open V8 (Block FreeHead Tid)

variable {T : Type*} {t u : Tid} {s s' : Shared T}
variable {l m : List Addr} {a : Addr} {site : Addr → Site} {x : Site} {g'' : Ghost}

/-! ## Ghost state -/

/-- Where a block is: freed, in the cached chain, in a variable of a thread, in the
running call of a thread, or in the chain a thread has detached. -/
inductive Site
  | freed
  | cached
  | list (t : Tid)
  | call (t : Tid)
  | busy (t : Tid)
  deriving DecidableEq

/-- Where each block is, who holds the head, and the list behind it. -/
structure Ghost where
  site : Addr → Site
  cache : List Addr
  fown : Option Tid

variable {g g' : Ghost}

/-- The links of the blocks, as a map. -/
def Shared.next (s : Shared T) : Addr → Option Addr := fun a => (s.heap a).next

/-- `l` is linked front to back and ends in null. -/
def Linked (s : Shared T) (l : List Addr) : Prop := LinkPath s.next l.head? l none

theorem Linked.congr (h : Linked s l) (hh : ∀ a ∈ l, s'.heap a = s.heap a) : Linked s' l := by
  refine path_congr (fun a ha => ?_) h
  show (s'.heap a).next = (s.heap a).next
  rw [hh a ha]

/-! ## The parts of the invariant -/

variable (t s g)

/-- The lists in the variables of the threads. -/
structure Lists : Prop where
  mem : ∀ u a, g.site a = .list u ↔ a ∈ (s.owned u).flatten
  nodup : ∀ u, (s.owned u).flatten.Nodup
  linked : ∀ u, ∀ l ∈ s.owned u, Linked s l

/-- The cached chain, and who holds the busy token. -/
structure Cached : Prop where
  path : ∀ p, s.head = .ptr p → LinkPath s.next p g.cache none
  mem : ∀ a, g.site a = .cached ↔ a ∈ g.cache
  nodup : g.cache.Nodup
  busy_iff : s.head = .busy ↔ g.fown ≠ none
  busy_nil : g.fown ≠ none → g.cache = []

/-- A block was made once more often than freed exactly while it is in use. -/
structure Counted : Prop where
  allocated : ∀ a, s.allocated a = false ↔ g.site a = .freed
  count : ∀ a, s.made.count a = s.gone.count a + (decide (g.site a ≠ .freed)).toNat

/-- A finished `take` took as much of its chain as the limit allows. -/
structure Take.Ok (e : Take) : Prop where
  chain : ∃ rem, e.chain = e.taken ++ rem ∧ e.rest = rem.head? ∧
    ∀ n, e.limit = some n → e.taken.length = min n e.chain.length
  nonempty : e.taken ≠ []
  nodup : e.chain.Nodup
  all : e.limit = none → e.taken = e.chain

/-- What the history promises about a finished call. -/
def Done : Op → Res → Prop
  | .take limit, res => ∃ l, res = .blocks l ∧ l.length ≤ limit ∧ l.Nodup
  | .recycle _, res => res = .recycled
  | .acquire count, res => ∃ l, res = .blocks l ∧ l.length = count ∧ l.Nodup
  | .flush, res => ∃ n, res = .freed n

/-- The invariant. -/
structure Inv : Prop where
  lists : Lists s g
  cached : Cached s g
  counted : Counted s g
  takes : ∀ e ∈ s.takes, e.Ok
  trace : ∀ e ∈ s.trace, Done e.2.1 e.2.2

/-! ## What a program counter knows -/

/-- What a caller of `take` has collected so far. -/
def TakeRet.blocks : TakeRet → List Addr
  | .acquire _ blocks _ => blocks
  | _ => []

/-- The lists and blocks of a running call, apart from a chain it has detached. -/
def Pc.blocks : Pc → List Addr
  | .tLoad r | .tCas r _ | .tWalk r _ _ => r.blocks
  | .tDone r cached => cached ++ r.blocks
  | .aAlloc _ blocks _ | .fDrop blocks _ => blocks
  | .rReset _ b | .rLoad _ b | .rLink _ b _ | .rPush _ b _ | .rFree _ b => [b]
  | _ => []

/-- The call holds the busy token. -/
def Pc.walks : Pc → Bool
  | .tWalk .. => true
  | _ => false

/-- What `acquire` has collected so far. -/
def RetOk : TakeRet → Prop
  | .caller limit => 0 < limit
  | .acquire count blocks remaining =>
    blocks.length + remaining = count ∧ 0 < remaining ∧ Linked s blocks
  | .flush => True

/-- The walk of `take` stands at `rest`. -/
structure Walking (r : TakeRet) (taken : List Addr) (rest : Option Addr) : Prop where
  chain : ∃ rem, s.detached t = taken ++ rem ∧ rest = rem.head?
  nodup : (s.detached t).Nodup
  linked : Linked s (s.detached t)
  nonempty : s.detached t ≠ []
  limit : r.limit.all (taken.length ≤ ·) = true
  ret : RetOk s r

/-- `take` has returned the list `cached`. -/
structure Returned (r : TakeRet) (cached : List Addr) : Prop where
  linked : Linked s cached
  limit : r.limit.all (cached.length ≤ ·) = true
  ret : RetOk s r

/-- The assertion at each program counter. -/
def At : Pc → Prop
  | .idle => True
  | .fault => False
  | .tLoad r => RetOk s r
  | .tCas r _ => RetOk s r
  | .tWalk r taken rest => Walking t s r taken rest
  | .tDone r cached => Returned s r cached
  | .aAlloc count blocks remaining => RetOk s (.acquire count blocks remaining)
  | .rPush _ b head => (s.heap b).next = head
  | _ => True

/-- The blocks of the running call of `t` are those of `l`. -/
structure Holds (l : List Addr) : Prop where
  mem : ∀ a, g.site a = .call t ↔ a ∈ l
  nodup : l.Nodup

/-- The blocks in the chain that `t` has detached are those of `l`, and `t` holds
the busy token exactly if `b` says so. -/
structure Token (b : Bool) (l : List Addr) : Prop where
  mem : ∀ a, g.site a = .busy t ↔ b = true ∧ a ∈ l
  fown : g.fown = some t ↔ b = true

/-- The assertion of a thread. -/
structure Local (pc : Pc) : Prop where
  holds : Holds t g pc.blocks
  token : Token t g pc.walks (s.detached t)
  here : At t s pc

/-- What thread `u` relies on. -/
structure Rely (u : Tid) (s : Shared T) (g : Ghost) (s' : Shared T) (g' : Ghost) : Prop where
  call : ∀ a, g'.site a = .call u ↔ g.site a = .call u
  busy : ∀ a, g'.site a = .busy u ↔ g.site a = .busy u
  fown : g'.fown = some u ↔ g.fown = some u
  heap : ∀ a, g.site a = .call u ∨ g.site a = .busy u → s'.heap a = s.heap a
  detached : s'.detached u = s.detached u

variable {t s g}

theorem RetOk.congr {r : TakeRet} (h : RetOk s r) (hh : ∀ a ∈ r.blocks, s'.heap a = s.heap a) :
    RetOk s' r := by
  cases r with
  | caller limit => exact h
  | flush => trivial
  | acquire count blocks remaining => exact ⟨h.1, h.2.1, h.2.2.congr hh⟩

theorem local_stable {pc : Pc} (hR : Rely u s g s' g') (h : Local u s g pc) :
    Local u s' g' pc := by
  have hcall : ∀ a ∈ pc.blocks, s'.heap a = s.heap a :=
    fun a ha => hR.heap a (Or.inl ((h.holds.mem a).mpr ha))
  refine ⟨⟨fun a => (hR.call a).trans (h.holds.mem a), h.holds.nodup⟩,
    ⟨fun a => ?_, hR.fown.trans h.token.fown⟩, ?_⟩
  · rw [hR.busy a, h.token.mem a, hR.detached]
  · have hh := h.here
    cases pc with
    | tLoad r => exact RetOk.congr hh hcall
    | tCas r head => exact RetOk.congr hh hcall
    | tWalk r taken rest =>
      have hd := hR.detached
      refine ⟨?_, hd ▸ hh.nodup, ?_, hd ▸ hh.nonempty, hh.limit, hh.ret.congr hcall⟩
      · rw [hd]
        exact hh.chain
      · rw [hd]
        exact hh.linked.congr fun a ha => hR.heap a (Or.inr ((h.token.mem a).mpr ⟨rfl, ha⟩))
    | tDone r cached =>
      exact ⟨hh.linked.congr fun a ha => hcall a (List.mem_append_left _ ha), hh.limit,
        hh.ret.congr fun a ha => hcall a (List.mem_append_right _ ha)⟩
    | aAlloc count blocks remaining => exact RetOk.congr (r := .acquire ..) hh hcall
    | rPush i b head =>
      show (s'.heap b).next = head
      rwa [hcall b (by simp [Pc.blocks])]
    | _ => exact hh

/-! ## One operation on memory -/

/-- Thread `t` has kept the invariant, and the others their locals. -/
structure Ok (t : Tid) (s : Shared T) (g : Ghost) (s' : Shared T) (g' : Ghost) : Prop where
  inv : Inv s' g'
  rely : ∀ u, u ≠ t → Rely u s g s' g'

theorem Ok.refl (h : Inv s g) : Ok t s g s g :=
  ⟨h, fun _ _ => ⟨fun _ => Iff.rfl, fun _ => Iff.rfl, Iff.rfl, fun _ _ => rfl, rfl⟩⟩

theorem Rely.trans {s'' : Shared T} (h : Rely u s g s' g')
    (h' : Rely u s' g' s'' g'') : Rely u s g s'' g'' where
  call := fun a => (h'.call a).trans (h.call a)
  busy := fun a => (h'.busy a).trans (h.busy a)
  fown := h'.fown.trans h.fown
  heap := fun a ha =>
    (h'.heap a (ha.imp (h.call a).mpr (h.busy a).mpr)).trans (h.heap a ha)
  detached := h'.detached.trans h.detached

theorem Ok.trans {s'' : Shared T} (h : Ok t s g s' g') (h' : Ok t s' g' s'' g'') :
    Ok t s g s'' g'' :=
  ⟨h'.inv, fun u hu => (h.rely u hu).trans (h'.rely u hu)⟩

/-- The step has nothing to do with the busy token of `t`. -/
structure Quiet (t : Tid) (g g' : Ghost) : Prop where
  busy : ∀ a, g'.site a = .busy t ↔ g.site a = .busy t
  fown : g'.fown = g.fown

theorem Quiet.refl : Quiet t g g := ⟨fun _ => Iff.rfl, rfl⟩

/-- A thread without the token stays without it. -/
theorem Quiet.token {l m : List Addr} (h : Quiet t g g') (ht : Token t g false l) :
    Token t g' false m := by
  refine ⟨fun a => ?_, by rw [h.fown]; exact ht.fown⟩
  rw [h.busy, ht.mem]
  simp

theorem Quiet.trans (h : Quiet t g g') (h' : Quiet t g' g'') : Quiet t g g'' :=
  ⟨fun a => (h'.busy a).trans (h.busy a), h'.fown.trans h.fown⟩

/-- The sites that the steps of thread `t` may touch. -/
def Site.Open (t : Tid) (x : Site) : Prop := ∀ u, u ≠ t → x ≠ .call u ∧ x ≠ .busy u

/-- Moving blocks between sites that belong to no other thread's call. -/
theorem Rely.of_move {x y : Site} (hu : u ≠ t) (hl : ∀ a ∈ l, g.site a = y)
    (hx : x.Open t) (hy : y.Open t) (hsite : g'.site = move g.site l x)
    (hfown : g'.fown = some u ↔ g.fown = some u)
    (hheap : ∀ a, g.site a = .call u ∨ g.site a = .busy u → s'.heap a = s.heap a)
    (hd : s'.detached u = s.detached u) : Rely u s g s' g' where
  call := fun a => by
    rw [hsite]
    exact move_iff hl (hx u hu).1 (hy u hu).1 a
  busy := fun a => by
    rw [hsite]
    exact move_iff hl (hx u hu).2 (hy u hu).2 a
  fown := hfown
  heap := hheap
  detached := hd

theorem open_freed : Site.Open t .freed := fun _ _ => ⟨by simp, by simp⟩
theorem open_cached : Site.Open t .cached := fun _ _ => ⟨by simp, by simp⟩
theorem open_list (u : Tid) : Site.Open t (.list u) := fun _ _ => ⟨by simp, by simp⟩
theorem open_call : Site.Open t (.call t) :=
  fun u hu => ⟨fun hc => hu (Site.call.inj hc).symm, by simp⟩
theorem open_busy : Site.Open t (.busy t) :=
  fun u hu => ⟨by simp, fun hc => hu (Site.busy.inj hc).symm⟩

/-- Steps that neither enter nor leave the lists of the threads. -/
theorem Lists.congr (h : Lists s g) (howned : s'.owned = s.owned)
    (hsite : ∀ u a, g'.site a = .list u ↔ g.site a = .list u)
    (hheap : ∀ u a, g.site a = .list u → s'.heap a = s.heap a) : Lists s' g' where
  mem := fun u a => by rw [hsite, h.mem, howned]
  nodup := fun u => by rw [howned]; exact h.nodup u
  linked := fun u l hl => by
    rw [howned] at hl
    exact (h.linked u l hl).congr fun a ha =>
      hheap u a ((h.mem u a).mpr (List.mem_flatten.mpr ⟨l, hl, ha⟩))

theorem Cached.congr (h : Cached s g) (hhead : s'.head = s.head) (hcache : g'.cache = g.cache)
    (hfown : g'.fown = g.fown) (hsite : ∀ a, g'.site a = .cached ↔ g.site a = .cached)
    (hheap : ∀ a, g.site a = .cached → s'.heap a = s.heap a) : Cached s' g' where
  path := fun p hp => by
    rw [hcache]
    refine path_congr (fun a ha => ?_) (h.path p (hhead ▸ hp))
    show (s'.heap a).next = (s.heap a).next
    rw [hheap a ((h.mem a).mpr ha)]
  mem := fun a => by rw [hsite, h.mem, hcache]
  nodup := hcache ▸ h.nodup
  busy_iff := by rw [hhead, hfown]; exact h.busy_iff
  busy_nil := by rw [hfown, hcache]; exact h.busy_nil

theorem Counted.congr (h : Counted s g) (hal : s'.allocated = s.allocated) (hm : s'.made = s.made)
    (hg : s'.gone = s.gone) (hsite : ∀ a, g'.site a = .freed ↔ g.site a = .freed) :
    Counted s' g' where
  allocated := fun a => by rw [hal, h.allocated, hsite]
  count := fun a => by
    rw [hm, hg, h.count a]
    congr 2
    exact decide_eq_decide.mpr (not_congr (hsite a).symm)

/-- A block of the running call may be changed. -/
theorem modBlock_ok (h : Inv s g) (ha : g.site a = .call t) (f : Block T → Block T) :
    Ok t s g (s.modBlock a f) g := by
  have hheap : ∀ b x, g.site b = x → x ≠ .call t → (s.modBlock a f).heap b = s.heap b := by
    rintro b x hb hx
    refine update_of_ne ?_ _ _
    rintro rfl
    exact hx (hb.symm.trans ha)
  refine ⟨⟨?_, ?_, ⟨h.counted.allocated, h.counted.count⟩, h.takes, h.trace⟩, fun u hu => ?_⟩
  · exact h.lists.congr rfl (fun _ _ => Iff.rfl) fun u b hb => hheap b _ hb (by simp)
  · exact h.cached.congr rfl rfl rfl (fun _ => Iff.rfl) fun b hb => hheap b _ hb (by simp)
  · refine ⟨fun _ => Iff.rfl, fun _ => Iff.rfl, Iff.rfl, fun b hb => ?_, rfl⟩
    rcases hb with hb | hb
    · exact hheap b _ hb (open_call u hu).1.symm
    · exact hheap b _ hb (by simp)

@[simp] theorem modBlock_next (s : Shared T) (a : Addr) (p : Option Addr) :
    (s.modBlock a (·.setNext p)).next = update s.next a p := by
  funext b
  show (update s.heap a _ b).next = _
  by_cases hb : b = a
  · subst hb
    rw [update_self, update_self]
    rfl
  · rw [update_of_ne hb, update_of_ne hb]
    rfl

theorem trace_ok (h : Inv s g) {op : Op} {res : Res} (hd : Done op res) :
    Ok t s g { s with trace := s.trace ++ [(t, op, res)] } g := by
  refine ⟨{ h with
    lists := ⟨h.lists.mem, h.lists.nodup, h.lists.linked⟩
    cached := { h.cached with }
    counted := ⟨h.counted.allocated, h.counted.count⟩
    trace := fun e he => ?_ }, fun u hu => (Ok.refl (t := t) h).rely u hu |>.trans
      ⟨fun _ => Iff.rfl, fun _ => Iff.rfl, Iff.rfl, fun _ _ => rfl, rfl⟩⟩
  rcases List.mem_append.mp he with he | he
  · exact h.trace e he
  · rw [List.mem_singleton] at he
    subst he
    exact hd

/-! ### Lists of the threads -/

theorem flatten_eraseIdx {ls : List (List Addr)} {i : ℕ} (hi : ls[i]? = some l) :
    (l ++ (ls.eraseIdx i).flatten).Perm ls.flatten := by
  obtain ⟨hlt, rfl⟩ := List.getElem?_eq_some_iff.mp hi
  exact (List.getElem_cons_eraseIdx_perm hlt).flatten

/-- **A list leaves its variable** and belongs to the running call. -/
theorem takeOut_ok (h : Inv s g) {i : ℕ} {l m : List Addr} (hi : (s.owned t)[i]? = some l)
    (hold : Holds t g m) : ∃ g', Ok t s g (s.takeOut t i) g' ∧ Holds t g' (l ++ m) ∧
      Linked (s.takeOut t i) l ∧ Quiet t g g' := by
  have hperm := flatten_eraseIdx hi
  have hmem : ∀ a ∈ l, g.site a = .list t := fun a ha =>
    (h.lists.mem t a).mpr (hperm.subset (List.mem_append_left _ ha))
  have hnd := hperm.nodup_iff.mpr (h.lists.nodup t)
  rw [List.nodup_append'] at hnd
  have hself : (s.takeOut t i).owned t = (s.owned t).eraseIdx i := update_self _ _ _
  have hother : ∀ u, u ≠ t → (s.takeOut t i).owned u = s.owned u :=
    fun u hu => update_of_ne hu _ _
  refine ⟨{ g with site := move g.site l (.call t) }, ⟨⟨?_, ?_, ?_, h.takes, h.trace⟩,
    fun u hu => ?_⟩, ⟨fun a => ?_, ?_⟩, ?_, fun a => ?_, rfl⟩
  · refine ⟨fun u a => ?_, fun u => ?_, fun u l' hl' => ?_⟩
    · by_cases hut : u = t
      · subst hut
        rw [hself]
        show move g.site l (.call u) a = .list u ↔ _
        by_cases ha : a ∈ l
        · rw [move_of_mem ha]
          exact iff_of_false (by simp) (hnd.2.2 ha)
        · rw [move_of_notMem ha, h.lists.mem, ← hperm.mem_iff, List.mem_append]
          simp [ha]
      · rw [hother u hut]
        refine (move_iff hmem (by simp) (fun hc => hut (Site.list.inj hc).symm) a).trans ?_
        exact h.lists.mem u a
    · by_cases hut : u = t
      · subst hut
        rw [hself]
        exact hnd.2.1
      · rw [hother u hut]
        exact h.lists.nodup u
    · by_cases hut : u = t
      · subst hut
        rw [hself] at hl'
        exact h.lists.linked u l' (List.mem_of_mem_eraseIdx hl')
      · rw [hother u hut] at hl'
        exact h.lists.linked u l' hl'
  · exact h.cached.congr rfl rfl rfl (move_iff hmem (by simp) (by simp)) fun _ _ => rfl
  · exact h.counted.congr rfl rfl rfl (move_iff hmem (by simp) (by simp))
  · exact Rely.of_move hu hmem open_call (open_list t) rfl Iff.rfl (fun _ _ => rfl) rfl
  · rw [move_to_iff, hold.mem, List.mem_append]
  · rw [List.nodup_append']
    refine ⟨hnd.1, hold.nodup, fun a ha ha' => ?_⟩
    have := (hold.mem a).mpr ha'
    simp [hmem a ha] at this
  · exact h.lists.linked t l (List.mem_of_getElem? hi)
  · exact move_iff hmem (by simp) (by simp) a

/-- **A list of the running call goes to a variable.** -/
theorem putIn_ok (h : Inv s g) {l m : List Addr} (hold : Holds t g (l ++ m))
    (hl : Linked s l) (u : Tid) : ∃ g', Ok t s g (s.putIn u l) g' ∧ Holds t g' m ∧
      Quiet t g g' := by
  have hmem : ∀ a ∈ l, g.site a = .call t := fun a ha =>
    (hold.mem a).mpr (List.mem_append_left _ ha)
  have hnd := List.nodup_append'.mp hold.nodup
  have hself : (s.putIn u l).owned u = l :: s.owned u := update_self _ _ _
  have hother : ∀ w, w ≠ u → (s.putIn u l).owned w = s.owned w :=
    fun w hw => update_of_ne hw _ _
  refine ⟨{ g with site := move g.site l (.list u) }, ⟨⟨?_, ?_, ?_, h.takes, h.trace⟩,
    fun w hw => ?_⟩, ⟨fun a => ?_, hnd.2.1⟩, fun a => ?_, rfl⟩
  · refine ⟨fun w a => ?_, fun w => ?_, fun w l' hl' => ?_⟩
    · by_cases hwu : w = u
      · subst hwu
        rw [hself, List.flatten_cons, List.mem_append, ← h.lists.mem w a]
        exact move_to_iff
      · rw [hother w hwu]
        refine (move_iff hmem (fun hc => hwu (Site.list.inj hc).symm) (by simp) a).trans ?_
        exact h.lists.mem w a
    · by_cases hwu : w = u
      · subst hwu
        rw [hself, List.flatten_cons, List.nodup_append']
        refine ⟨hnd.1, h.lists.nodup w, fun a ha ha' => ?_⟩
        have := (h.lists.mem w a).mpr ha'
        simp [hmem a ha] at this
      · rw [hother w hwu]
        exact h.lists.nodup w
    · by_cases hwu : w = u
      · subst hwu
        rw [hself] at hl'
        rcases List.mem_cons.mp hl' with rfl | hl'
        · exact hl
        · exact h.lists.linked w l' hl'
      · rw [hother w hwu] at hl'
        exact h.lists.linked w l' hl'
  · exact h.cached.congr rfl rfl rfl (move_iff hmem (by simp) (by simp)) fun _ _ => rfl
  · exact h.counted.congr rfl rfl rfl (move_iff hmem (by simp) (by simp))
  · exact Rely.of_move hw hmem (open_list u) open_call rfl Iff.rfl (fun _ _ => rfl) rfl
  · show move g.site l (.list u) a = .call t ↔ _
    by_cases ha : a ∈ l
    · rw [move_of_mem ha]
      exact iff_of_false (by simp) (hnd.2.2 ha)
    · rw [move_of_notMem ha, hold.mem, List.mem_append]
      simp [ha]
  · exact move_iff hmem (by simp) (by simp) a

/-! ### The allocator -/

/-- **A new block** for the running call. -/
theorem alloc_ok (h : Inv s g) (ha : s.allocated a = false)
    (hold : Holds t g m) : ∃ g', Ok t s g (s.alloc a) g' ∧ Holds t g' (a :: m) ∧
      (s.alloc a).next a = none ∧ (∀ b, b ≠ a → (s.alloc a).heap b = s.heap b) ∧
      Quiet t g g' := by
  have hfree : g.site a = .freed := (h.counted.allocated a).mp ha
  have hmem : ∀ b ∈ [a], g.site b = .freed := by simpa using hfree
  have hne : ∀ b x, g.site b = x → x ≠ .freed → b ≠ a := by
    rintro b x hb hx rfl
    exact hx (hb.symm.trans hfree)
  have hheap : ∀ b, b ≠ a → (s.alloc a).heap b = s.heap b :=
    fun b hb => update_of_ne hb _ _
  refine ⟨{ g with site := move g.site [a] (.call t) }, ⟨⟨?_, ?_, ?_, h.takes, h.trace⟩,
    fun u hu => ?_⟩, ⟨fun b => ?_, ?_⟩, ?_, hheap, fun b => ?_, rfl⟩
  · exact h.lists.congr rfl (fun u => move_iff hmem (by simp) (by simp))
      fun u b hb => hheap b (hne b _ hb (by simp))
  · exact h.cached.congr rfl rfl rfl (move_iff hmem (by simp) (by simp))
      fun b hb => hheap b (hne b _ hb (by simp))
  · refine ⟨fun b => ?_, fun b => ?_⟩
    · by_cases hba : b = a
      · subst hba
        show update s.allocated b true b = false ↔ move g.site [b] (.call t) b = .freed
        rw [update_self, move_of_mem (by simp)]
        simp
      · show update s.allocated a true b = false ↔ move g.site [a] (.call t) b = .freed
        rw [update_of_ne hba, move_of_notMem (by simpa using hba)]
        exact h.counted.allocated b
    · show (s.made ++ [a]).count b = s.gone.count b +
        (decide (move g.site [a] (.call t) b ≠ .freed)).toNat
      rw [List.count_append, h.counted.count b]
      by_cases hba : b = a
      · subst hba
        rw [move_of_mem (by simp), hfree, List.count_singleton_self]
        simp
      · have hzero : [a].count b = 0 := List.count_eq_zero_of_not_mem (by simpa using hba)
        rw [move_of_notMem (by simpa using hba), hzero]
        rfl
  · refine Rely.of_move hu hmem open_call open_freed rfl Iff.rfl (fun b hb => hheap b ?_) rfl
    rcases hb with hb | hb <;> exact hne b _ hb (by simp)
  · rw [move_to_iff, hold.mem, List.mem_singleton, List.mem_cons]
  · refine List.nodup_cons.mpr ⟨fun hc => ?_, hold.nodup⟩
    exact hne a _ ((hold.mem a).mpr hc) (by simp) rfl
  · show (update s.heap a Block.new a).next = none
    rw [update_self]
    rfl
  · exact move_iff hmem (by simp) (by simp) b

/-- **A block of the running call is freed.** -/
theorem dealloc_ok (h : Inv s g) (hold : Holds t g (a :: m)) :
    ∃ g', Ok t s g (s.dealloc a) g' ∧ Holds t g' m ∧ Quiet t g g' := by
  have hcall : g.site a = .call t := (hold.mem a).mpr (by simp)
  have hmem : ∀ b ∈ [a], g.site b = .call t := by simpa using hcall
  have hnd := List.nodup_cons.mp hold.nodup
  refine ⟨{ g with site := move g.site [a] .freed }, ⟨⟨?_, ?_, ?_, h.takes, h.trace⟩,
    fun u hu => ?_⟩, ⟨fun b => ?_, hnd.2⟩, fun b => ?_, rfl⟩
  · exact h.lists.congr rfl (fun u => move_iff hmem (by simp) (by simp)) fun _ _ _ => rfl
  · exact h.cached.congr rfl rfl rfl (move_iff hmem (by simp) (by simp)) fun _ _ => rfl
  · refine ⟨fun b => ?_, fun b => ?_⟩
    · by_cases hba : b = a
      · subst hba
        show update s.allocated b false b = false ↔ move g.site [b] .freed b = .freed
        rw [update_self, move_of_mem (by simp)]
        simp
      · show update s.allocated a false b = false ↔ move g.site [a] .freed b = .freed
        rw [update_of_ne hba, move_of_notMem (by simpa using hba)]
        exact h.counted.allocated b
    · show s.made.count b = (s.gone ++ [a]).count b +
        (decide (move g.site [a] .freed b ≠ .freed)).toNat
      rw [List.count_append, h.counted.count b]
      by_cases hba : b = a
      · subst hba
        rw [move_of_mem (by simp), hcall, List.count_singleton_self]
        simp
      · have hzero : [a].count b = 0 := List.count_eq_zero_of_not_mem (by simpa using hba)
        rw [move_of_notMem (by simpa using hba), hzero]
        rfl
  · exact Rely.of_move hu hmem open_freed open_call rfl Iff.rfl (fun _ _ => rfl) rfl
  · show move g.site [a] .freed b = .call t ↔ _
    by_cases hba : b = a
    · subst hba
      rw [move_of_mem (by simp)]
      exact iff_of_false (by simp) hnd.1
    · rw [move_of_notMem (by simpa using hba), hold.mem, List.mem_cons]
      simp [hba]
  · exact move_iff hmem (by simp) (by simp) b

/-! ### The head of the freelist -/

/-- Following the links with enough steps gives the whole chain. -/
theorem walk_eq {p : Option Addr} (h : LinkPath s.next p l none) {n : ℕ}
    (hn : l.length ≤ n) : s.walk n p = l := by
  induction l generalizing p n with
  | nil =>
    obtain rfl : p = none := h
    cases n <;> rfl
  | cons a l ih =>
    obtain ⟨rfl, htail⟩ := h
    cases n with
    | zero => cases hn
    | succ n =>
      have hrest := ih htail (n := n) (by simpa using hn)
      rw [← hrest]
      rfl

/-- The cached blocks have all been allocated. -/
theorem Inv.cache_length (h : Inv s g) : g.cache.length ≤ s.made.length := by
  refine (List.subperm_of_subset h.cached.nodup fun a ha => ?_).length_le
  have hcount := h.counted.count a
  rw [(h.cached.mem a).mpr ha] at hcount
  simp only [ne_eq, reduceCtorEq, not_false_eq_true, decide_true, Bool.toNat_true] at hcount
  exact List.count_pos_iff.mp (by omega)

/-- **The busy token**: the whole cached chain is detached. -/
theorem detach_ok (h : Inv s g) {head : Addr} (hhead : s.head = .ptr (some head))
    (hold : Holds t g m) (htok : ∀ a, g.site a ≠ .busy t) :
    ∃ g', Ok t s g { s with
        head := .busy
        detached := update s.detached t (s.walk s.made.length (some head)) } g' ∧
      Holds t g' m ∧ g'.fown = some t ∧
      (∀ a, g'.site a = .busy t ↔ a ∈ s.walk s.made.length (some head)) ∧
      LinkPath s.next (some head) (s.walk s.made.length (some head)) none ∧
      (s.walk s.made.length (some head)).Nodup := by
  have hpath := h.cached.path _ hhead
  rw [walk_eq hpath h.cache_length]
  have hmem : ∀ a ∈ g.cache, g.site a = .cached := fun a ha => (h.cached.mem a).mpr ha
  have hfown : g.fown = none := by
    by_contra hc
    have := h.cached.busy_iff.mpr hc
    simp [hhead] at this
  refine ⟨{ site := move g.site g.cache (.busy t), cache := [], fown := some t },
    ⟨⟨?_, ?_, ?_, h.takes, h.trace⟩, fun u hu => ?_⟩, ⟨fun a => ?_, hold.nodup⟩, rfl, fun a => ?_,
    hpath, h.cached.nodup⟩
  · exact h.lists.congr rfl (fun u => move_iff hmem (by simp) (by simp)) fun _ _ _ => rfl
  · refine ⟨fun p hp => absurd hp (by simp), fun a => ?_, List.nodup_nil, by simp, fun _ => rfl⟩
    show move g.site g.cache (.busy t) a = .cached ↔ a ∈ []
    by_cases ha : a ∈ g.cache
    · simp [move_of_mem ha]
    · rw [move_of_notMem ha, h.cached.mem]
      simp [ha]
  · exact h.counted.congr rfl rfl rfl (move_iff hmem (by simp) (by simp))
  · refine Rely.of_move hu hmem open_busy open_cached rfl ?_ (fun _ _ => rfl) ?_
    · exact iff_of_false (not_mine rfl hu) (by simp [hfown])
    · exact update_of_ne hu _ _
  · exact (move_iff hmem (by simp) (by simp) a).trans (hold.mem a)
  · rw [move_to_iff]
    simp [htok a]

/-- Cutting a chain in two: both parts end in null. -/
theorem linked_sever {taken rem : List Addr} {z : Addr} (hl : Linked s (taken ++ rem))
    (hnd : (taken ++ rem).Nodup) (hz : taken.getLast? = some z) :
    Linked (s.modBlock z (·.setNext none)) taken ∧ Linked (s.modBlock z (·.setNext none)) rem := by
  unfold Linked
  rw [modBlock_next]
  exact path_sever hnd hz hl

/-- **The token is given back**: a prefix of the detached chain belongs to the call,
the rest is cached again. -/
theorem sever_ok (h : Inv s g) {m taken rem : List Addr} {z : Addr} (hold : Holds t g m)
    (hfown : g.fown = some t) (hbusy : ∀ a, g.site a = .busy t ↔ a ∈ taken ++ rem)
    (hnd : (taken ++ rem).Nodup) (hl : Linked s (taken ++ rem)) (hz : taken.getLast? = some z)
    {e : Take} (he : e.Ok) :
    ∃ g', Ok t s g { s.modBlock z (·.setNext none) with
        head := .ptr rem.head?, takes := s.takes ++ [e] } g' ∧ Holds t g' (taken ++ m) ∧
      (∀ a, g'.site a ≠ .busy t) ∧ g'.fown = none ∧
      Linked (s.modBlock z (·.setNext none)) taken := by
  obtain ⟨hnd1, hnd2, hdis⟩ := List.nodup_append'.mp hnd
  have hztaken : z ∈ taken := List.mem_of_getLast? hz
  obtain ⟨hltaken, hlrem⟩ := linked_sever hl hnd hz
  have hb1 : ∀ a ∈ taken, g.site a = .busy t := fun a ha =>
    (hbusy a).mpr (List.mem_append_left _ ha)
  have hb2 : ∀ a ∈ rem, move g.site taken (.call t) a = .busy t := fun a ha => by
    rw [move_of_notMem fun hc => hdis hc ha]
    exact (hbusy a).mpr (List.mem_append_right _ ha)
  have hheap : ∀ a, a ≠ z → (s.modBlock z (·.setNext none)).heap a = s.heap a :=
    fun a ha => update_of_ne ha _ _
  have hne : ∀ a x, g.site a = x → x ≠ .busy t → a ≠ z := by
    rintro a x ha hx rfl
    exact hx (ha.symm.trans (hb1 a hztaken))
  have hcache : g.cache = [] := h.cached.busy_nil (by simp [hfown])
  -- two moves: the prefix to the call, the rest to the cache
  have hsite : ∀ x, x ≠ .busy t → x ≠ .call t → x ≠ .cached → ∀ a,
      move (move g.site taken (.call t)) rem .cached a = x ↔ g.site a = x := by
    intro x hx1 hx2 hx3 a
    rw [move_iff hb2 hx3.symm hx1.symm, move_iff hb1 hx2.symm hx1.symm]
  refine ⟨{ site := move (move g.site taken (.call t)) rem .cached, cache := rem, fown := none },
    ⟨⟨?_, ?_, ?_, fun e' he' => ?_, h.trace⟩, fun u hu => ?_⟩, ⟨fun a => ?_, ?_⟩, fun a => ?_, rfl,
    hltaken⟩
  · exact h.lists.congr rfl (fun u => hsite _ (by simp) (by simp) (by simp))
      fun u a ha => hheap a (hne a _ ha (by simp))
  · refine ⟨fun p hp => ?_, fun a => ?_, hnd2, by simp, by simp⟩
    · obtain rfl : p = rem.head? := by simpa using hp.symm
      exact hlrem
    · rw [move_to_iff, move_iff hb1 (by simp) (by simp), h.cached.mem, hcache]
      simp
  · exact h.counted.congr rfl rfl rfl (hsite _ (by simp) (by simp) (by simp))
  · rcases List.mem_append.mp he' with he' | he'
    · exact h.takes e' he'
    · rw [List.mem_singleton] at he'
      subst he'
      exact he
  · have hcu := (open_call (t := t) u hu).1
    refine ⟨hsite _ (by simp) hcu.symm (by simp), hsite _ ?_ (by simp) (by simp), ?_, ?_, rfl⟩
    · exact fun hc => hu (Site.busy.inj hc)
    · exact iff_of_false (by simp) (not_mine hfown hu)
    · intro a ha
      refine hheap a ?_
      rcases ha with ha | ha
      · exact hne a _ ha (by simp)
      · exact hne a _ ha fun hc => hu (Site.busy.inj hc)
  · rw [move_iff hb2 (by simp) (by simp), move_to_iff, hold.mem, List.mem_append]
  · rw [List.nodup_append']
    refine ⟨hnd1, hold.nodup, fun a ha ha' => ?_⟩
    have := (hold.mem a).mpr ha'
    simp [hb1 a ha] at this
  · show move (move g.site taken (.call t)) rem .cached a ≠ .busy t
    intro hc
    by_cases har : a ∈ rem
    · simp [move_of_mem har] at hc
    · rw [move_of_notMem har] at hc
      by_cases hat : a ∈ taken
      · simp [move_of_mem hat] at hc
      · rw [move_of_notMem hat, hbusy, List.mem_append] at hc
        exact hc.elim hat har

/-- **A block of the running call is pushed** in front of the cached chain. -/
theorem push_ok (h : Inv s g) {b : Addr} {head : Option Addr}
    (hold : Holds t g (b :: m)) (hhead : s.head = .ptr head) (hnext : s.next b = head) :
    ∃ g', Ok t s g { s with head := .ptr (some b) } g' ∧ Holds t g' m ∧ Quiet t g g' := by
  have hcall : g.site b = .call t := (hold.mem b).mpr (by simp)
  have hmem : ∀ a ∈ [b], g.site a = .call t := by simpa using hcall
  have hnd := List.nodup_cons.mp hold.nodup
  have hfown : g.fown = none := by
    by_contra hc
    have := h.cached.busy_iff.mpr hc
    simp [hhead] at this
  have hbc : b ∉ g.cache := fun hc => by
    have := (h.cached.mem b).mpr hc
    simp [hcall] at this
  refine ⟨{ g with site := move g.site [b] .cached, cache := b :: g.cache },
    ⟨⟨?_, ?_, ?_, h.takes, h.trace⟩, fun u hu => ?_⟩, ⟨fun a => ?_, hnd.2⟩, fun a => ?_, rfl⟩
  · exact h.lists.congr rfl (fun u => move_iff hmem (by simp) (by simp)) fun _ _ _ => rfl
  · refine ⟨fun p hp => ?_, fun a => ?_, List.nodup_cons.mpr ⟨hbc, h.cached.nodup⟩, ?_, ?_⟩
    · obtain rfl : p = some b := by simpa using hp.symm
      refine ⟨rfl, ?_⟩
      show LinkPath s.next (s.next b) g.cache none
      rw [hnext]
      exact h.cached.path _ hhead
    · rw [move_to_iff, h.cached.mem, List.mem_singleton, List.mem_cons]
    · simp [hfown]
    · exact fun hc => absurd hfown hc
  · exact h.counted.congr rfl rfl rfl (move_iff hmem (by simp) (by simp))
  · exact Rely.of_move hu hmem open_cached open_call rfl Iff.rfl (fun _ _ => rfl) rfl
  · show move g.site [b] .cached a = .call t ↔ _
    by_cases hab : a = b
    · subst hab
      rw [move_of_mem (by simp)]
      exact iff_of_false (by simp) hnd.1
    · rw [move_of_notMem (by simpa using hab), hold.mem, List.mem_cons]
      simp [hab]
  · exact move_iff hmem (by simp) (by simp) a

end FreeList
