/-
# The intrusive list of blocks

`BlockList` holds a chain of blocks by its two ends and a count, and splices the links in
place.  A program that uses it is a sequence of operations on variables, each of which is
a list, one detached `OwnedBlock` or the raw pointer to a chain.

`Op.effect` is what each operation means for plain lists.  `list_refines` says that every
sequence of operations computes that meaning: every variable describes its list exactly,
and every block belongs to one of them.
-/
import Ubq.Strands

namespace V8

open Function

/-- `BlockList`. -/
structure BlockList where
  head : Option Addr
  tail : Option Addr
  len : ℕ
  deriving DecidableEq

namespace BlockList

variable (nxt : Addr → Option Addr)

/-- `BlockList::new`. -/
def new : BlockList := ⟨none, none, 0⟩

/-- The loop of `from_raw`; `none` when the fuel is spent before the chain ends. -/
def fromRawLoop : ℕ → Option Addr → Option Addr → ℕ → Option (Option Addr × ℕ)
  | 0, _, _, _ => none
  | _ + 1, none, tail, len => some (tail, len)
  | fuel + 1, some curr, _, len => fromRawLoop fuel (nxt curr) (some curr) (len + 1)

/-- `BlockList::from_raw`. -/
def fromRaw (fuel : ℕ) (head : Option Addr) : Option BlockList :=
  (fromRawLoop nxt fuel head none 0).map fun r => ⟨head, r.1, r.2⟩

/-- `BlockList::from_raw_parts`. -/
def fromRawParts (head tail : Option Addr) (len : ℕ) : BlockList := ⟨head, tail, len⟩

/-- `into_raw`: the pointer, and what is left of the list. -/
def intoRaw (self : BlockList) : Option Addr × BlockList := (self.head, ⟨none, none, 0⟩)

/-- `push`: the links and the list afterwards. -/
def push (self : BlockList) (block : Addr) : (Addr → Option Addr) × BlockList :=
  (update nxt block self.head,
    { head := some block
      tail := if self.head = none then some block else self.tail
      len := self.len + 1 })

/-- `pop`: the block, the links and the list afterwards. -/
def pop (self : BlockList) : Option (Addr × (Addr → Option Addr) × BlockList) :=
  self.head.map fun block =>
    (block, update nxt block none,
      { head := nxt block
        tail := if nxt block = none then none else self.tail
        len := self.len - 1 })

/-- `add_assign`: the links, the list and what is left of `rhs`; `none` for a null
dereference. -/
def addAssign (self rhs : BlockList) : Option ((Addr → Option Addr) × BlockList × BlockList) :=
  if rhs.head = none then some (nxt, self, rhs)
  else
    -- the link of the other list's tail is written through the pointer
    rhs.tail.map fun z =>
      (update nxt z self.head,
        { head := rhs.intoRaw.1
          tail := if self.head = none then rhs.tail else self.tail
          len := self.len + rhs.len },
        rhs.intoRaw.2)

/-- The list describes the blocks `xs`. -/
def Describes (self : BlockList) (xs : List Addr) : Prop :=
  self.head = xs.head? ∧ self.tail = xs.getLast? ∧ self.len = xs.length

end BlockList

/-- A variable of the program. -/
inductive Var
  | list (l : BlockList)
  | block (b : Addr)
  | raw (p : Option Addr)
  | moved

/-- The variable owns the blocks `xs`. -/
def Var.Describes : Var → List Addr → Prop
  | .list l, xs => l.Describes xs
  | .block b, xs => xs = [b]
  | .raw p, xs => p = xs.head?
  | .moved, xs => xs = []

namespace BlockList

/-- The variables, the links and the allocated blocks. -/
structure State where
  vars : List Var
  next : Addr → Option Addr
  live : Addr → Bool

/-- The variable that each operation reads is given by its index. -/
inductive Op
  | new
  | alloc (a : Addr)
  | push (i j : ℕ)
  | pop (i : ℕ)
  | fromRaw (i fuel : ℕ)
  | fromRawParts (i : ℕ) (tail : Option Addr) (len : ℕ)
  | intoRaw (i : ℕ)
  | addAssign (i j : ℕ)

/-- One operation. -/
def State.apply (s : State) : Op → Option State
  | .new => some { s with vars := s.vars ++ [.list .new] }
  | .alloc a =>
    some { vars := s.vars ++ [.block a]
           next := update s.next a none
           live := update s.live a true }
  | .push i j =>
    match s.vars[i]?, s.vars[j]? with
    | some (.list l), some (.block b) =>
      let r := l.push s.next b
      some { s with vars := (s.vars.set i (.list r.2)).set j .moved, next := r.1 }
    | _, _ => none
  | .pop i =>
    match s.vars[i]? with
    | some (.list l) =>
      match l.pop s.next with
      | some (b, nxt, l') =>
          some { s with vars := s.vars.set i (.list l') ++ [.block b], next := nxt }
      | none => some s
    | _ => none
  | .fromRaw i fuel =>
    match s.vars[i]? with
    | some (.raw p) => (fromRaw s.next fuel p).map fun l =>
        { s with vars := s.vars.set i (.list l) }
    | _ => none
  | .fromRawParts i tail len =>
    match s.vars[i]? with
    | some (.raw p) => some { s with vars := s.vars.set i (.list (fromRawParts p tail len)) }
    | _ => none
  | .intoRaw i =>
    match s.vars[i]? with
    | some (.list l) => some { s with vars := s.vars.set i (.raw l.intoRaw.1) }
    | _ => none
  | .addAssign i j =>
    match s.vars[i]?, s.vars[j]? with
    | some (.list a), some (.list b) =>
      (a.addAssign s.next b).map fun r =>
        { s with vars := (s.vars.set i (.list r.2.1)).set j (.list r.2.2), next := r.1 }
    | _, _ => none

/-- The caller's side: variables of the right types, two of them apart, memory that the
allocator has not given out yet, the exact end and length for `from_raw_parts`, and for
the loop of `from_raw` more fuel than the chain has blocks. -/
def Op.Ready (s : State) : Op → Prop
  | .new => True
  | .alloc a => s.live a = false
  | .push i j => i ≠ j ∧ ∃ l b, s.vars[i]? = some (.list l) ∧ s.vars[j]? = some (.block b)
  | .pop i => ∃ l, s.vars[i]? = some (.list l)
  | .fromRaw i fuel =>
    ∃ p xs, s.vars[i]? = some (.raw p) ∧ LinkPath s.next p xs none ∧ xs.length < fuel
  | .fromRawParts i tail len =>
    ∃ p xs, s.vars[i]? = some (.raw p) ∧ LinkPath s.next p xs none ∧ tail = xs.getLast? ∧
      len = xs.length
  | .intoRaw i => ∃ l, s.vars[i]? = some (.list l)
  | .addAssign i j => i ≠ j ∧ ∃ a b, s.vars[i]? = some (.list a) ∧ s.vars[j]? = some (.list b)

/-- The operation on plain lists, one for each variable. -/
def Op.effect (ls : List (List Addr)) : Op → List (List Addr)
  | .new => ls ++ [[]]
  | .alloc a => ls ++ [[a]]
  | .push i j | .addAssign i j => (ls.set i (ls.getD j [] ++ ls.getD i [])).set j []
  | .pop i =>
    match ls.getD i [] with
    | [] => ls
    | b :: xs => ls.set i xs ++ [[b]]
  | .fromRaw _ _ | .fromRawParts _ _ _ | .intoRaw _ => ls

/-- The operations lead from `s` to `s'`. -/
def Runs : List Op → State → State → Prop
  | [], s, s' => s = s'
  | op :: ops, s, s' => op.Ready s ∧ ∃ m, s.apply op = some m ∧ Runs ops m s'

/-- The variables own the lists `ls`, which are disjoint, linked as listed and hold every
allocated block. -/
def State.Owns (s : State) (ls : List (List Addr)) : Prop :=
  Owned Var.Describes s.next s.live s.vars ls

/-! ## The operations on the links -/

variable {nxt : Addr → Option Addr} {live : Addr → Bool} {l rhs : BlockList} {xs ys : List Addr}
  {ls : List (List Addr)}

theorem Describes.head_none (h : l.Describes xs) : l.head = none ↔ xs = [] := by
  rw [h.1, List.head?_eq_none_iff]

/-- The loop walks to the end of the chain. -/
theorem fromRawLoop_eq {p : Option Addr} (h : LinkPath nxt p xs none) {fuel : ℕ}
    (hfuel : xs.length < fuel) (tail : Option Addr) (len : ℕ) :
    fromRawLoop nxt fuel p tail len = some (xs.getLast?.or tail, len + xs.length) := by
  -- each round takes one block off the chain that is still ahead
  induction xs generalizing p fuel tail len with
  | nil =>
    obtain ⟨fuel, rfl⟩ : ∃ n, fuel = n + 1 := ⟨fuel - 1, by simp at hfuel; omega⟩
    obtain rfl : p = none := h
    rfl
  | cons a xs ih =>
    obtain ⟨fuel, rfl⟩ : ∃ n, fuel = n + 1 := ⟨fuel - 1, by simp at hfuel; omega⟩
    obtain ⟨rfl, htail⟩ := h
    rw [fromRawLoop, ih htail (by simpa using hfuel)]
    cases hlast : xs.getLast? with
    | none =>
      rw [List.getLast?_eq_none_iff.mp hlast]
      rfl
    | some z =>
      simp only [List.getLast?_cons, hlast, List.length_cons, Option.or, Option.getD_some]
      rw [Nat.add_assoc, Nat.add_comm 1]

theorem fromRaw_eq {p : Option Addr} (h : LinkPath nxt p xs none) {fuel : ℕ}
    (hfuel : xs.length < fuel) : ∃ l, fromRaw nxt fuel p = some l ∧ l.Describes xs := by
  refine ⟨⟨p, xs.getLast?.or none, 0 + xs.length⟩, ?_, path_head h, ?_, ?_⟩
  · unfold fromRaw
    rw [fromRawLoop_eq h hfuel]
    rfl
  · exact Option.or_none
  · exact Nat.zero_add _

/-- `a += b` puts the blocks of `b` before those of `a` and leaves `b` empty. -/
theorem addAssign_ok (hl : l.Describes xs) (hrhs : rhs.Describes ys)
    (h : Strands nxt live (xs :: ys :: ls)) :
    ∃ nxt' l' rhs', l.addAssign nxt rhs = some (nxt', l', rhs') ∧ l'.Describes (ys ++ xs) ∧
      rhs'.Describes [] ∧ Strands nxt' live ((ys ++ xs) :: [] :: ls) := by
  unfold addAssign
  by_cases hys : ys = []
  · subst hys
    rw [if_pos (hrhs.head_none.mpr rfl)]
    exact ⟨_, _, _, rfl, hl, hrhs, h⟩
  · rw [if_neg fun hc => hys (hrhs.head_none.mp hc)]
    obtain ⟨z, hz⟩ := Option.ne_none_iff_exists'.mp fun hc => hys (List.getLast?_eq_none_iff.mp hc)
    rw [hrhs.2.1, hz, hl.1]
    refine ⟨_, _, _, rfl, ⟨?_, ?_, ?_⟩, ⟨rfl, rfl, rfl⟩, ?_⟩
    · rw [List.head?_append_of_ne_nil _ hys]
      exact hrhs.1
    · rw [List.getLast?_append]
      by_cases hxs : xs = []
      · subst hxs
        exact hz.symm
      · obtain ⟨w, hw⟩ :=
          Option.ne_none_iff_exists'.mp fun hc => hxs (List.getLast?_eq_none_iff.mp hc)
        rw [hw, if_neg fun hc => hxs (List.head?_eq_none_iff.mp hc)]
        exact hl.2.1.trans hw
    · rw [hl.2.2, hrhs.2.2, List.length_append, Nat.add_comm]
    · have hjoin := (h.perm (.swap ys xs ls)).join hz
      exact hjoin.nil.perm (.swap _ _ _)

/-- `push` is the same splice with a list of one block. -/
theorem push_ok {b : Addr} (hl : l.Describes xs) (h : Strands nxt live (xs :: [b] :: ls)) :
    (l.push nxt b).2.Describes (b :: xs) ∧
    Strands (l.push nxt b).1 live ((b :: xs) :: [] :: ls) := by
  obtain ⟨nxt', l', _, heq, hl', _, hs⟩ :=
    addAssign_ok hl (show Describes ⟨some b, some b, 1⟩ [b] from ⟨rfl, rfl, rfl⟩) h
  have hsome : some (l.push nxt b) = some (nxt', l') := by
    have := congrArg (Option.map fun r => (r.1, r.2.1)) heq
    exact this
  rw [Option.some.inj hsome]
  exact ⟨hl', hs⟩

/-- `pop` takes the head off and detaches it. -/
theorem pop_ok {b : Addr} (hl : l.Describes (b :: xs)) (h : Strands nxt live ((b :: xs) :: ls)) :
    ∃ l', l.pop nxt = some (b, update nxt b none, l') ∧ l'.Describes xs ∧
      Strands (update nxt b none) live ([b] :: xs :: ls) := by
  have hnext : nxt b = xs.head? := path_head (h.path _ (List.mem_cons_self ..)).2
  unfold pop
  rw [hl.1]
  refine ⟨_, rfl, ⟨hnext, ?_, ?_⟩,
    Strands.sever (show Strands nxt live (([b] ++ xs) :: ls) from h) rfl⟩
  · rw [hnext, hl.2.1]
    cases xs with
    | nil => rfl
    | cons a xs => rfl
  · rw [hl.2.2]
    rfl

/-! ## Steps and runs -/

variable {s s' : State}

theorem getD_eq {i : ℕ} (h : ls[i]? = some xs) : ls.getD i [] = xs := by
  rw [List.getD_eq_getElem?_getD, h]
  rfl

/-- Only the representation of variable `i` changes. -/
theorem State.Owns.recast (h : s.Owns ls) {i : ℕ} {u v : Var} (hu : s.vars[i]? = some u)
    (hv : ∀ xs, u.Describes xs → LinkPath s.next xs.head? xs none → v.Describes xs) :
    State.Owns { s with vars := s.vars.set i v } ls := by
  obtain ⟨xs, rest, hx, hrep, hs, hset⟩ := h.at_one hu
  have howned := (hset (hv xs hrep (hs.path xs (List.mem_cons_self ..)))).1 hs
  rwa [set_of_getElem? hx] at howned

/-- **One operation** computes its meaning on the lists. -/
theorem apply_refines (h : s.Owns ls) {op : Op} (hop : op.Ready s) :
    ∃ m, s.apply op = some m ∧ m.Owns (op.effect ls) := by
  cases op with
  | new => exact ⟨_, rfl, Owned.append h.rep ⟨rfl, rfl, rfl⟩ h.strands.nil⟩
  | alloc a =>
    refine ⟨_, rfl, Owned.append h.rep rfl (h.strands.fresh (List.nodup_singleton a) ?_ ?_ ?_ ?_)⟩
    · intro b hb
      rwa [List.mem_singleton.mp hb]
    · exact ⟨rfl, update_self ..⟩
    · exact fun b hb => update_of_ne (fun hc => hb (List.mem_singleton.mpr hc)) ..
    · intro b
      rw [List.mem_singleton]
      by_cases hb : b = a
      · simp [hb]
      · simp [hb, update_of_ne]
  | push i j =>
    obtain ⟨hij, l, b, hi, hj⟩ := hop
    obtain ⟨xs, ys, rest, hx, hy, hl, hb, hs, hset⟩ := h.at_two hij hi hj
    obtain rfl : ys = [b] := hb
    have hpush := push_ok hl hs
    refine ⟨_, by simp only [State.apply, hi, hj]; rfl, ?_⟩
    rw [Op.effect, getD_eq hx, getD_eq hy]
    exact hset hpush.1 rfl hpush.2
  | pop i =>
    obtain ⟨l, hi⟩ := hop
    obtain ⟨xs, rest, hx, hl, hs, hset⟩ := h.at_one hi
    cases xs with
    | nil =>
      refine ⟨s, ?_, ?_⟩
      · simp only [State.apply, hi, pop, hl.1, List.head?_nil, Option.map_none]
      · simp only [Op.effect, getD_eq hx]
        exact h
    | cons b xs =>
      obtain ⟨l', hpop, hl', hs'⟩ := pop_ok hl hs
      refine ⟨_, by simp only [State.apply, hi, hpop]; rfl, ?_⟩
      simp only [Op.effect, getD_eq hx]
      exact (hset (p := .list l') hl').2 rfl hs'
  | fromRaw i fuel =>
    obtain ⟨p, xs, hi, hpath, hfuel⟩ := hop
    obtain ⟨l, hl, hdesc⟩ := fromRaw_eq hpath hfuel
    refine ⟨_, by simp only [State.apply, hi, hl, Option.map_some]; rfl, h.recast hi ?_⟩
    intro ys hys hpath'
    rw [← hys] at hpath'
    rwa [path_unique hpath' hpath]
  | fromRawParts i tail len =>
    obtain ⟨p, xs, hi, hpath, htail, hlen⟩ := hop
    refine ⟨_, by simp only [State.apply, hi]; rfl, h.recast hi ?_⟩
    intro ys hys hpath'
    rw [← hys] at hpath'
    rw [path_unique hpath' hpath]
    exact ⟨path_head hpath, htail, hlen⟩
  | intoRaw i =>
    obtain ⟨l, hi⟩ := hop
    exact ⟨_, by simp only [State.apply, hi]; rfl,
      h.recast hi (v := .raw l.head) fun _ hl _ => hl.1⟩
  | addAssign i j =>
    obtain ⟨hij, a, b, hi, hj⟩ := hop
    obtain ⟨xs, ys, rest, hx, hy, ha, hb, hs, hset⟩ := h.at_two hij hi hj
    obtain ⟨nxt', a', b', heq, ha', hb', hs'⟩ := addAssign_ok ha hb hs
    refine ⟨_, by simp only [State.apply, hi, hj, heq, Option.map_some]; rfl, ?_⟩
    rw [Op.effect, getD_eq hx, getD_eq hy]
    exact hset ha' hb' hs'

/-- **`BlockList` implements lists.**  From variables that own disjoint chains, every
sequence of operations leaves every variable describing exactly the list that the
operations on plain lists give it, with no block lost or owned twice; and the next
operation always succeeds. -/
theorem list_refines (h : s.Owns ls) {ops : List Op} (hrun : Runs ops s s') :
    s'.Owns (ops.foldl Op.effect ls) ∧ ∀ op : Op, op.Ready s' → ∃ m, s'.apply op = some m := by
  induction ops generalizing s ls with
  | nil =>
    obtain rfl : s = s' := hrun
    refine ⟨h, fun op hop => ?_⟩
    obtain ⟨m, hm, _⟩ := apply_refines h hop
    exact ⟨m, hm⟩
  | cons op ops ih =>
    obtain ⟨hop, m, hm, hrest⟩ := hrun
    obtain ⟨m', hm', howns⟩ := apply_refines h hop
    obtain rfl : m = m' := Option.some.inj (hm.symm.trans hm')
    exact ih howns hrest

/-- Two lists of one block each, spliced; the block taken off is that of the second. -/
theorem list_refines_splice :
    let ops : List Op :=
      [.new, .alloc 7, .push 0 1, .new, .alloc 9, .push 2 3, .addAssign 0 2, .pop 0]
    ∃ s, Runs ops ⟨[], fun _ => none, fun _ => false⟩ s ∧ s.Owns [[7], [], [], [], [9]] := by
  intro ops
  obtain ⟨s, hrun⟩ : ∃ s, Runs ops ⟨[], fun _ => none, fun _ => false⟩ s :=
    ⟨_, trivial, _, rfl, rfl, _, rfl, ⟨by decide, _, _, rfl, rfl⟩, _, rfl, trivial, _, rfl, rfl, _,
      rfl, ⟨by decide, _, _, rfl, rfl⟩, _, rfl, ⟨by decide, _, _, rfl, rfl⟩, _, rfl, ⟨_, rfl⟩, _,
      rfl, rfl⟩
  have hempty : State.Owns ⟨[], fun _ => none, fun _ => false⟩ [] :=
    ⟨⟨.nil, by simp, by simp⟩, .nil⟩
  exact ⟨s, hrun, (list_refines hempty hrun).1⟩

end BlockList

end V8
