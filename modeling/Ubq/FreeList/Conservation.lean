/-
# The freelist conserves blocks

Every step of every thread keeps the invariant of the freelist (`step_ok`), so it
holds along every run.  Read off it are the facts a user of the freelist needs:
a block in use is in exactly one place (`Lies`), a finished `take` has split the
chain it detached at its limit and published the rest, and `acquire` returns as
many blocks as it was asked for.
-/
import Ubq.FreeList.Inv

namespace FreeList

open Function Interleave

open V8 (Block FreeHead Tid)

variable {T : Type*} {t u : Tid} {s s' : Shared T} {g g' : Ghost}
variable {r : TakeRet} {x : Shared T × Pc} {d taken : List Addr} {pc : Pc} {act : Act}
  {rest : Option Addr}

/-- What a step lemma shows of the state and the program counter it leads to. -/
def StepOk (t : Tid) (s : Shared T) (g : Ghost) (r : Shared T × Pc) : Prop :=
  ∃ g', Ok t s g r.1 g' ∧ Local t r.1 g' r.2

theorem StepOk.after {r : Shared T × Pc} (h : Ok t s g s' g') (h' : StepOk t s' g' r) :
    StepOk t s g r := by
  obtain ⟨g'', hok, hl⟩ := h'
  exact ⟨g'', h.trans hok, hl⟩

theorem Holds.perm {l l' : List Addr} (h : Holds t g l) (hp : l.Perm l') : Holds t g l' :=
  ⟨fun a => (h.mem a).trans hp.mem_iff, hp.nodup_iff.mp h.nodup⟩

/-! ## Returning -/

theorem ret_ok (h : Inv s g) (hold : Holds t g []) {l : List Addr} (ht : Token t g false l)
    {op : Op} {res : Res} (hd : Done op res) : StepOk t s g (ret s t op res) :=
  ⟨g, trace_ok h hd, hold, Quiet.refl.token ht, trivial⟩

theorem retList_ok (h : Inv s g) {l : List Addr} (hold : Holds t g l) (hl : Linked s l)
    (ht : Token t g false d) {op : Op} (hd : Done op (.blocks l)) :
    StepOk t s g (retList s t op l) := by
  obtain ⟨g', hok, hold', hq⟩ := putIn_ok h (m := []) (by simpa using hold) hl t
  exact StepOk.after hok (ret_ok hok.inv hold' (hq.token ht (m := d)) hd)

/-- **Joining two lists** of the running call. -/
theorem addAssign_ok (h : Inv s g) {self rhs : List Addr} (hold : Holds t g (rhs ++ self))
    (hr : Linked s rhs) (hs : Linked s self) :
    ∃ s', s.addAssign self rhs = (s', rhs ++ self) ∧ Ok t s g s' g ∧ Linked s' (rhs ++ self) := by
  cases hz : rhs.getLast? with
  | none =>
    obtain rfl := List.getLast?_eq_none_iff.mp hz
    exact ⟨s, rfl, Ok.refl h, hs⟩
  | some z =>
    have hmem := List.mem_append_left self (List.mem_of_getLast? hz)
    refine ⟨s.modBlock z (·.setNext self.head?), by simp only [Shared.addAssign, hz], ?_, ?_⟩
    · exact modBlock_ok h ((hold.mem z).mpr hmem) _
    · unfold Linked
      rw [modBlock_next]
      exact path_join hold.nodup hz hr hs

/-- **The caller goes on** with the list that `take` has returned. -/
theorem took_ok (h : Inv s g) {cached : List Addr} (hr : Returned s r cached)
    (hold : Holds t g (cached ++ r.blocks)) (ht : Token t g false d) :
    StepOk t s g (took s t r cached) := by
  cases r with
  | caller limit =>
    have hold' : Holds t g cached := by simpa [TakeRet.blocks] using hold
    refine retList_ok h hold' hr.linked ht ⟨cached, rfl, ?_, hold'.nodup⟩
    simpa [TakeRet.limit] using hr.limit
  | flush =>
    have hold' : Holds t g cached := by simpa [TakeRet.blocks] using hold
    exact ⟨g, Ok.refl h, hold', Quiet.refl.token ht, trivial⟩
  | acquire count blocks remaining =>
    obtain ⟨hcount, hpos, hlinked⟩ := hr.ret
    have hlen : cached.length ≤ remaining := by simpa [TakeRet.limit] using hr.limit
    have hold : Holds t g (cached ++ blocks) := hold
    obtain ⟨s', heq, hok, hl⟩ := addAssign_ok h hold hr.linked hlinked
    have htotal : (cached ++ blocks).length + (remaining - cached.length) = count := by
      rw [List.length_append]
      omega
    have htook : took s t (.acquire count blocks remaining) cached
        = if remaining - cached.length = 0 then retList s' t (.acquire count) (cached ++ blocks)
          else (s', .aAlloc count (cached ++ blocks) (remaining - cached.length)) := by
      simp only [took, heq]
    rw [htook]
    by_cases hn : remaining - cached.length = 0
    · rw [if_pos hn]
      exact StepOk.after hok (retList_ok hok.inv hold hl ht ⟨_, rfl, by omega, hold.nodup⟩)
    · rw [if_neg hn]
      exact ⟨g, hok, hold, Quiet.refl.token ht, htotal, by omega, hl⟩

/-! ## Private work -/

/-- What private work shows: back at rest, with nothing in the running call. -/
theorem work_ok (h : Inv s g) (hl : Local t s g .idle) {w : Work}
    (hw : work s t w = some s') : StepOk t s g (s', .idle) := by
  have hnone : Holds t g [] := hl.holds
  have hidle : ∀ {s₁ : Shared T} {g₁ : Ghost}, Holds t g₁ [] → Quiet t g g₁ →
      Local t s₁ g₁ .idle := fun hold hq => ⟨hold, hq.token hl.token, trivial⟩
  cases w with
  | pop i =>
    simp only [work] at hw
    split at hw
    · rename_i a l hi
      cases hw
      obtain ⟨g₁, hok₁, hold₁, hlinked, hq₁⟩ := takeOut_ok h hi hnone
      have hcall : g₁.site a = .call t := (hold₁.mem a).mpr (by simp)
      have hrelink := modBlock_ok hok₁.inv hcall (·.setNext none)
      have hal := (List.nodup_cons.mp (List.nodup_append'.mp hold₁.nodup).1).1
      have hrest : Linked ((s.takeOut t i).modBlock a (·.setNext none)) l := by
        have htail : LinkPath (s.takeOut t i).next ((s.takeOut t i).next a) l none := hlinked.2
        unfold Linked
        rw [modBlock_next, ← path_head htail]
        refine path_congr (fun b hb => update_of_ne ?_ _ _) htail
        rintro rfl
        exact hal hb
      obtain ⟨g₂, hok₂, hold₂, hq₂⟩ := putIn_ok hrelink.inv (l := l) (m := [a])
        (hold₁.perm (by simpa using (List.perm_append_singleton a l).symm)) hrest t
      have hone : Linked (((s.takeOut t i).modBlock a (·.setNext none)).putIn t l) [a] := by
        refine ⟨rfl, ?_⟩
        show ((s.takeOut t i).modBlock a (·.setNext none)).next a = none
        rw [modBlock_next, update_self]
      obtain ⟨g₃, hok₃, hold₃, hq₃⟩ := putIn_ok hok₂.inv (l := [a]) (m := []) hold₂ hone t
      exact ⟨g₃, ((hok₁.trans hrelink).trans hok₂).trans hok₃,
        hidle hold₃ ((hq₁.trans hq₂).trans hq₃)⟩
    · cases hw
  | add i j =>
    simp only [work] at hw
    split at hw
    · rename_i self rhs hi hj
      obtain ⟨g₁, hok₁, hold₁, hl₁, hq₁⟩ := takeOut_ok h hi hnone
      obtain ⟨g₂, hok₂, hold₂, hl₂, hq₂⟩ := takeOut_ok hok₁.inv hj hold₁
      obtain ⟨s₃, heq, hok₃, hl₃⟩ := addAssign_ok hok₂.inv (by simpa using hold₂) hl₂ hl₁
      rw [heq] at hw
      cases hw
      obtain ⟨g₄, hok₄, hold₄, hq₄⟩ := putIn_ok hok₃.inv (l := rhs ++ self) (m := [])
        (by simpa using hold₂) hl₃ t
      exact ⟨g₄, ((hok₁.trans hok₂).trans hok₃).trans hok₄,
        hidle hold₄ ((hq₁.trans hq₂).trans hq₄)⟩
    · cases hw
  | drop i =>
    simp only [work] at hw
    split at hw
    · rename_i a l hi
      cases hw
      obtain ⟨g₁, hok₁, hold₁, hlinked, hq₁⟩ := takeOut_ok h hi hnone
      obtain ⟨g₂, hok₂, hold₂, hq₂⟩ := dealloc_ok hok₁.inv hold₁
      have hrest : Linked ((s.takeOut t i).dealloc a) l := by
        have htail : LinkPath (s.takeOut t i).next ((s.takeOut t i).next a) l none := hlinked.2
        unfold Linked
        rwa [← path_head htail]
      obtain ⟨g₃, hok₃, hold₃, hq₃⟩ := putIn_ok hok₂.inv hold₂ hrest t
      exact ⟨g₃, (hok₁.trans hok₂).trans hok₃, hidle hold₃ ((hq₁.trans hq₂).trans hq₃)⟩
    · cases hw
  | give i u =>
    simp only [work] at hw
    split at hw
    · rename_i l hi
      cases hw
      obtain ⟨g₁, hok₁, hold₁, hlinked, hq₁⟩ := takeOut_ok h hi hnone
      obtain ⟨g₂, hok₂, hold₂, hq₂⟩ := putIn_ok hok₁.inv hold₁ hlinked u
      exact ⟨g₂, hok₁.trans hok₂, hidle hold₂ (hq₁.trans hq₂)⟩
    · cases hw

/-! ## The steps of the calls -/

theorem call_ok (h : Inv s g) (hl : Local t s g .idle) (op : Op) :
    Post (StepOk t s g) (step t (.call op) s .idle) := by
  have hempty : Linked s ([] : List Addr) := rfl
  cases op with
  | take limit =>
    simp only [step]
    split
    · exact retList_ok h hl.holds hempty hl.token ⟨[], rfl, by simp, List.nodup_nil⟩
    · rename_i hne
      exact ⟨g, Ok.refl h, hl.holds, hl.token, Nat.pos_of_ne_zero hne⟩
  | recycle i =>
    simp only [step]
    split
    · rename_i b hi
      obtain ⟨g₁, hok, hold, _, hq⟩ := takeOut_ok h hi hl.holds
      exact ⟨g₁, hok, hold, hq.token hl.token, trivial⟩
    · trivial
  | acquire count =>
    simp only [step]
    split
    · rename_i hzero
      exact retList_ok h hl.holds hempty hl.token ⟨[], rfl, by simp [hzero], List.nodup_nil⟩
    · rename_i hne
      exact ⟨g, Ok.refl h, hl.holds, hl.token, by simp, Nat.pos_of_ne_zero hne, hempty⟩
  | flush => exact ⟨g, Ok.refl h, hl.holds, hl.token, trivial⟩

/-- `take` looks at the head: nothing to take, or a head to try. -/
theorem takeHead_ok (h : Inv s g) (hr : RetOk s r) (hold : Holds t g r.blocks)
    (ht : Token t g false d) : StepOk t s g (s, takeHead r s.head) := by
  have hq : Token t g false (s.detached t) := Quiet.refl.token ht
  have hmiss : StepOk t s g (s, .tDone r []) := by
    refine ⟨g, Ok.refl h, hold, hq, rfl, ?_, hr⟩
    cases r <;> simp [TakeRet.limit]
  cases hhead : s.head with
  | busy => exact hmiss
  | ptr p =>
    cases p with
    | none => exact hmiss
    | some a => exact ⟨g, Ok.refl h, hold, hq, hr⟩

theorem tCas_ok (h : Inv s g) {head : Addr} (hl : Local t s g (.tCas r head))
    (hhead : s.head = .ptr (some head)) :
    StepOk t s g ({ s with
      head := .busy
      detached := update s.detached t (s.walk s.made.length (some head)) },
      .tWalk r [] (some head)) := by
  obtain ⟨g', hok, hold, hfown, hbusy, hpath, hnd⟩ := detach_ok h hhead hl.holds
    fun a => by rw [ne_eq, hl.token.mem]; simp [Pc.walks]
  generalize s.walk s.made.length (some head) = chain at hok hbusy hpath hnd ⊢
  have hdet : update s.detached t chain t = chain := update_self _ _ _
  have hsome := path_head hpath
  refine ⟨g', hok, hold, ⟨fun a => ?_, by simp [hfown, Pc.walks]⟩, ⟨chain, hdet, hsome⟩, ?_, ?_, ?_,
    ?_, hl.here⟩
  · show g'.site a = .busy t ↔ true = true ∧ a ∈ update s.detached t chain t
    rw [hbusy, hdet]
    simp
  · show (update s.detached t chain t).Nodup
    rwa [hdet]
  · show LinkPath s.next (update s.detached t chain t).head?
      (update s.detached t chain t) none
    rwa [hdet, ← hsome]
  · show update s.detached t chain t ≠ []
    rw [hdet]
    rintro rfl
    cases hsome
  · cases r <;> simp [TakeRet.limit]

/-- Where the walk stops, it has taken as much as the limit allows. -/
theorem Walking.take_ok {taken rem : List Addr} (hw : Walking t s r taken rem.head?)
    (hchain : s.detached t = taken ++ rem) (hstop : rem = [] ∨ r.limit = some taken.length)
    (hne : taken ≠ []) : (⟨r.limit, s.detached t, taken, rem.head?⟩ : Take).Ok := by
  refine ⟨⟨rem, hchain, rfl, fun n hn => ?_⟩, hne, hw.nodup, fun hnone => ?_⟩
  · have hn : r.limit = some n := hn
    have hle : taken.length ≤ n := by simpa [hn] using hw.limit
    show taken.length = min n (s.detached t).length
    rw [hchain, List.length_append]
    rcases hstop with rfl | hstop
    · simp only [List.length_nil]
      omega
    · obtain rfl : taken.length = n := Option.some.inj (hstop.symm.trans hn)
      omega
  · have hrem : rem = [] := hstop.resolve_right fun hc => by
      simp [show r.limit = none from hnone] at hc
    rw [hchain, hrem, List.append_nil]

/-- The walk of `take` is at its limit, or at the end of the chain. -/
theorem severed_ok (h : Inv s g) (rem : List Addr)
    (hl : Local t s g (.tWalk r taken rem.head?)) (hchain : s.detached t = taken ++ rem)
    (hstop : rem = [] ∨ r.limit = some taken.length) (hne : taken ≠ []) :
    StepOk t s g (severed s t r taken rem.head?) := by
  obtain ⟨z, hz⟩ : ∃ z, taken.getLast? = some z := ⟨_, List.getLast?_eq_some_getLast hne⟩
  have hw := hl.here
  have hnd := hw.nodup
  have hlinked := hw.linked
  rw [hchain] at hnd hlinked
  have htake := hw.take_ok hchain hstop hne
  obtain ⟨g', hok, hold, hbusy, hfown, hlt⟩ := sever_ok h hl.holds
    (hl.token.fown.mpr rfl) (fun a => by rw [hl.token.mem, hchain]; simp [Pc.walks]) hnd hlinked
    hz htake
  have hres : severed s t r taken rem.head? = ({ s.modBlock z (·.setNext none) with
      head := .ptr rem.head?
      takes := s.takes ++ [⟨r.limit, s.detached t, taken, rem.head?⟩] }, .tDone r taken) := by
    simp only [severed, hz]
  rw [hres]
  refine ⟨g', hok, hold, ⟨fun a => ?_, ?_⟩, hlt, hw.limit, ?_⟩
  · simp [hbusy a, Pc.walks]
  · simp [hfown, Pc.walks]
  · refine hw.ret.congr fun a ha => update_of_ne ?_ _ _
    rintro rfl
    have hcall := (hl.holds.mem a).mpr ha
    rw [(hl.token.mem a).mpr ⟨rfl, hchain ▸ List.mem_append_left _ (List.mem_of_getLast? hz)⟩]
      at hcall
    cases hcall

/-- The walk goes on to the next block, or stops at the limit or the end. -/
theorem tWalk_cases
    (hw : Walking t s r taken rest)
    (hs : step t .run s (.tWalk r taken rest) = some x) :
    (∃ a rem, s.detached t = taken ++ a :: rem ∧ r.limit.all (taken.length < ·) = true ∧
      x = (s, .tWalk r (taken ++ [a]) rem.head?)) ∨
    ∃ rem, s.detached t = taken ++ rem ∧ rest = rem.head? ∧
      (rem = [] ∨ r.limit = some taken.length) ∧ taken ≠ [] ∧
      x = severed s t r taken rem.head? := by
  obtain ⟨rem, hchain, rfl⟩ := hw.chain
  cases rem with
  | nil =>
    obtain rfl : severed s t r taken none = x := by simpa [step] using hs
    refine Or.inr ⟨[], hchain, rfl, Or.inl rfl, ?_, rfl⟩
    rintro rfl
    exact hw.nonempty hchain
  | cons a rem =>
    simp only [step, List.head?_cons] at hs
    split at hs <;> cases hs
    · rename_i hlt
      have hlinked := hw.linked
      rw [hchain] at hlinked
      have hnext : (s.heap a).next = rem.head? := by
        obtain ⟨m, _, h2⟩ := path_append.mp hlinked
        exact path_head h2.2
      exact Or.inl ⟨a, rem, hchain, hlt, by rw [hnext]⟩
    · rename_i hlt
      have hlim := hw.limit
      obtain ⟨n, hn⟩ : ∃ n, r.limit = some n := by
        cases hr : r.limit with
        | none => exact absurd (by simp [hr]) hlt
        | some n => exact ⟨n, rfl⟩
      have hpos : 0 < n := by
        have hret := hw.ret
        cases r with
        | caller limit => exact Option.some.inj hn ▸ hret
        | acquire count blocks remaining => exact Option.some.inj hn ▸ hret.2.1
        | flush => simp [TakeRet.limit] at hn
      simp only [hn, Option.all_some, decide_eq_true_eq] at hlt hlim
      have hlen : taken.length = n := by omega
      refine Or.inr ⟨a :: rem, hchain, rfl, Or.inr (by rw [hn, hlen]), ?_, rfl⟩
      rintro rfl
      simp only [List.length_nil] at hlen
      omega

theorem tWalk_ok (h : Inv s g)
    (hl : Local t s g (.tWalk r taken rest))
    (hs : step t .run s (.tWalk r taken rest) = some x) : StepOk t s g x := by
  have hw := hl.here
  rcases tWalk_cases hw hs with ⟨a, rem, hchain, hlt, rfl⟩ | ⟨rem, hchain, rfl, hstop, hne, rfl⟩
  · refine ⟨g, Ok.refl h, hl.holds, hl.token, ⟨rem, ?_, rfl⟩, hw.nodup, hw.linked, hw.nonempty, ?_,
      hw.ret⟩
    · rw [hchain, List.append_assoc]
      rfl
    · cases hr : r.limit with
      | none => rfl
      | some n => simpa [hr, Nat.succ_le_iff] using hlt
  · exact severed_ok h rem hl hchain hstop hne

/-- `acquire` allocates one of its blocks. -/
theorem aAlloc_ok (h : Inv s g) {count remaining : ℕ} {blocks : List Addr}
    (hl : Local t s g (.aAlloc count blocks remaining)) {a : Addr} (ha : s.allocated a = false) :
    Post (StepOk t s g) (step t (.alloc a) s (.aAlloc count blocks remaining)) := by
  obtain ⟨hcount, hpos, hlinked⟩ := hl.here
  have hblocks : Holds t g blocks := hl.holds
  obtain ⟨g', hok, hold, _, hheap, hq⟩ := alloc_ok h ha hblocks
  have hcall : g'.site a = .call t := (hold.mem a).mpr (by simp)
  have hrelink := modBlock_ok hok.inv hcall (·.setNext blocks.head?)
  have hl' : Linked ((s.alloc a).modBlock a (·.setNext blocks.head?)) (a :: blocks) := by
    refine ⟨rfl, ?_⟩
    rw [modBlock_next, update_self]
    refine path_congr (fun b hb => ?_) hlinked
    have hba : b ≠ a := fun hc => (List.nodup_cons.mp hold.nodup).1 (hc ▸ hb)
    rw [update_of_ne hba]
    show ((s.alloc a).heap b).next = (s.heap b).next
    rw [hheap b hba]
  have htok : Token t g' false (s.detached t) := hq.token hl.token
  simp only [step, ha, Bool.false_eq_true, if_false]
  split
  · refine StepOk.after (hok.trans hrelink) (retList_ok hrelink.inv hold hl' htok
      ⟨_, rfl, ?_, hold.nodup⟩)
    rw [List.length_cons]
    omega
  · refine ⟨g', hok.trans hrelink, hold, htok, ?_, by omega, hl'⟩
    rw [List.length_cons]
    omega

theorem walk_ok (h : Inv s g) (hl : Local t s g pc) :
    Post (StepOk t s g) (step t .run s pc) := by
  cases pc with
  | tLoad r => exact takeHead_ok h hl.here hl.holds hl.token
  | tCas r head =>
    simp only [step]
    split
    · rename_i hhead
      exact tCas_ok h hl hhead
    · exact takeHead_ok h hl.here hl.holds hl.token
  | tWalk r taken rest => exact Post.intro fun _ hs => tWalk_ok h hl hs
  | tDone r cached => exact took_ok h hl.here hl.holds hl.token
  | fDrop blocks freed =>
    cases blocks with
    | nil => exact ret_ok h hl.holds hl.token ⟨freed, rfl⟩
    | cons b rest =>
      obtain ⟨g', hok, hold, hq⟩ := dealloc_ok h hl.holds
      exact ⟨g', hok, hold, hq.token hl.token, trivial⟩
  | rReset i b =>
    have hb : g.site b = .call t := (hl.holds.mem b).mpr (by simp [Pc.blocks])
    exact ⟨g, modBlock_ok h hb _, hl.holds, hl.token, trivial⟩
  | rLoad i b => exact ⟨g, Ok.refl h, hl.holds, hl.token, trivial⟩
  | rLink i b head =>
    cases head with
    | busy => exact ⟨g, Ok.refl h, hl.holds, hl.token, trivial⟩
    | ptr p =>
      have hb : g.site b = .call t := (hl.holds.mem b).mpr (by simp [Pc.blocks])
      refine ⟨g, modBlock_ok h hb (·.setNext p), hl.holds, hl.token, ?_⟩
      show (s.modBlock b (·.setNext p)).next b = p
      rw [modBlock_next, update_self]
  | rPush i b head =>
    simp only [step]
    split
    · rename_i hhead
      obtain ⟨g', hok, hold, hq⟩ := push_ok h (m := []) hl.holds hhead hl.here
      exact StepOk.after hok (ret_ok hok.inv hold (hq.token hl.token (m := [])) rfl)
    · exact ⟨g, Ok.refl h, hl.holds, hl.token, trivial⟩
  | rFree i b =>
    obtain ⟨g', hok, hold, hq⟩ := dealloc_ok h (m := []) hl.holds
    exact StepOk.after hok (ret_ok hok.inv hold (hq.token hl.token (m := [])) rfl)
  | idle | fault | aAlloc => trivial

/-- **Every step of every thread keeps the invariant.** -/
theorem step_ok (h : Inv s g) (hl : Local t s g pc)
    (hs : step t act s pc = some x) : StepOk t s g x := by
  apply Post.of hs
  cases act with
  | run => exact walk_ok h hl
  | call op =>
    cases pc with
    | idle => exact call_ok h hl op
    | _ => cases op <;> trivial
  | work w =>
    cases pc with
    | idle =>
      simp only [step]
      cases hw : work s t w with
      | none => trivial
      | some s' => exact work_ok h hl hw
    | _ => trivial
  | spurious =>
    cases pc with
    | tCas r head => exact takeHead_ok h hl.here hl.holds hl.token
    | rPush i b head => exact ⟨g, Ok.refl h, hl.holds, hl.token, trivial⟩
    | _ => trivial
  | alloc a =>
    cases ha : s.allocated a with
    | true => cases pc <;> simp only [step, ha] <;> trivial
    | false =>
      cases pc with
      | idle =>
        obtain ⟨g₁, hok₁, hold₁, hnext, _, hq₁⟩ := alloc_ok h ha hl.holds
        obtain ⟨g₂, hok₂, hold₂, hq₂⟩ := putIn_ok hok₁.inv (l := [a]) (m := []) hold₁
          ⟨rfl, hnext⟩ t
        simp only [step, ha]
        exact ⟨g₂, hok₁.trans hok₂, hold₂, (hq₁.trans hq₂).token hl.token, trivial⟩
      | aAlloc count blocks remaining => exact aAlloc_ok h hl ha
      | _ => trivial

/-! ## Along every run -/

/-- The configurations of the system. -/
abbrev Conf (T : Type*) := Interleave.Conf Tid (Shared T) Pc

/-- A configuration and a ghost value that fit together. -/
def Good (c : Conf T) (g : Ghost) : Prop := Inv c.sh g ∧ ∀ t, Local t c.sh g (c.pc t)

/-- The ghost value of the new freelist. -/
def Ghost.new : Ghost := ⟨fun _ => .freed, [], none⟩

theorem inv_new : Inv (Shared.new : Shared T) Ghost.new where
  lists := ⟨fun u a => by simp [Shared.new, Ghost.new], fun u => List.nodup_nil,
    fun u l hl => absurd hl List.not_mem_nil⟩
  cached := ⟨fun p hp => (FreeHead.ptr.inj hp).symm, fun a => by simp [Ghost.new], List.nodup_nil,
    by simp [Shared.new, Ghost.new], fun _ => rfl⟩
  counted := ⟨fun a => iff_of_true rfl rfl, fun a => rfl⟩
  takes := fun e he => absurd he List.not_mem_nil
  trace := fun e he => absurd he List.not_mem_nil

theorem local_new (t : Tid) : Local t (Shared.new : Shared T) Ghost.new .idle where
  holds := ⟨fun a => by simp [Ghost.new, Pc.blocks], List.nodup_nil⟩
  token := ⟨fun a => by simp [Ghost.new, Pc.walks], by simp [Ghost.new, Pc.walks]⟩
  here := trivial

theorem run_ok {c : Conf T} (hc : (system T).Reachable c) : ∃ g, Good c g := by
  refine System.rely_guarantee (system T) Inv Local Rely ⟨Ghost.new, inv_new, local_new⟩
    (fun t s g p s' p' hI hL hs => ?_) (fun u s g s' g' p _ _ hR hL => local_stable hR hL) hc
  obtain ⟨act, hact⟩ := hs
  obtain ⟨g', hok, hl⟩ := step_ok hI hL hact
  exact ⟨g', hok.inv, hl, hok.rely⟩

/-! ## Conservation -/

/-- The block at address `a` is at the site, as the memory and the locals show it. -/
def Lies (c : Conf T) (a : Addr) : Site → Prop
  | .freed => c.sh.gone.count a = c.sh.made.count a
  | .cached => ∃ p l, c.sh.head = .ptr p ∧ LinkPath c.sh.next p l none ∧ a ∈ l
  | .list t => a ∈ (c.sh.owned t).flatten
  | .call t => a ∈ (c.pc t).blocks
  | .busy t => ∃ r taken rest rem, c.pc t = .tWalk r taken rest ∧
      LinkPath c.sh.next rest rem none ∧ a ∈ taken ++ rem

/-- Every block is at one site, and in one list of the thread that owns it; the lists that
threads own or are returned are null-terminated; finished calls returned what they
should. -/
structure Conserved (c : Conf T) : Prop where
  site : ∀ a ∈ c.sh.made, ∃! x, Lies c a x
  live : ∀ a, c.sh.allocated a = true ↔ ¬ Lies c a .freed
  once : ∀ a, c.sh.gone.count a ≤ c.sh.made.count a ∧
    c.sh.made.count a ≤ c.sh.gone.count a + 1
  owned : ∀ t, (c.sh.owned t).flatten.Nodup
  linked : ∀ t, ∀ l ∈ c.sh.owned t, LinkPath c.sh.next l.head? l none
  returned : ∀ t r l, c.pc t = .tDone r l → l.Nodup ∧ LinkPath c.sh.next l.head? l none ∧
    ∀ n, r.limit = some n → l.length ≤ n
  takes : ∀ e ∈ c.sh.takes, e.Ok
  trace : ∀ e ∈ c.sh.trace, Done e.2.1 e.2.2

/-- What one step does to the head: it detaches the whole cached chain, or it
splits the detached chain at the limit and publishes exactly the rest. -/
structure TakeStep (t : Tid) (c c' : Conf T) : Prop where
  detach : ∀ p, c.sh.head = .ptr p → c'.sh.head = .busy →
    LinkPath c.sh.next p (c'.sh.detached t) none
  keep : ∀ u, (c.pc u).walks = true → c'.sh.detached u = c.sh.detached u
  restore : c.sh.head = .busy → ∀ p, c'.sh.head = .ptr p →
    ∃ r taken rest rem, c.pc t = .tWalk r taken rest ∧ c'.pc t = .tDone r taken ∧
      c.sh.detached t = taken ++ rem ∧ (∀ n, r.limit = some n → taken.length
        = min n (c.sh.detached t).length) ∧ (r.limit = none → rem = []) ∧
      LinkPath c'.sh.next taken.head? taken none ∧ LinkPath c'.sh.next p rem none

/-- The rest of the chain lies where the walk stands. -/
theorem Walking.rest_path (hw : Walking t s r taken rest) :
    ∃ rem, s.detached t = taken ++ rem ∧ LinkPath s.next rest rem none := by
  obtain ⟨rem, hchain, hrest⟩ := hw.chain
  have hlinked := hw.linked
  rw [hchain] at hlinked
  obtain ⟨m, _, hpath⟩ := path_append.mp hlinked
  obtain rfl : m = rest := (path_head hpath).trans hrest.symm
  exact ⟨rem, hchain, hpath⟩

theorem Good.lies_iff {c : Conf T} (h : Good c g) {a : Addr} {x : Site} :
    Lies c a x ↔ g.site a = x := by
  obtain ⟨hI, hL⟩ := h
  cases x with
  | freed =>
    have hcount := hI.counted.count a
    show c.sh.gone.count a = c.sh.made.count a ↔ g.site a = .freed
    by_cases hf : g.site a = .freed <;> simp [hf] at hcount ⊢ <;> omega
  | cached =>
    rw [hI.cached.mem]
    constructor
    · rintro ⟨p, l, hp, hl, ha⟩
      rwa [path_unique hl (hI.cached.path p hp)] at ha
    · intro ha
      cases hhead : c.sh.head with
      | busy =>
        rw [hI.cached.busy_nil (hI.cached.busy_iff.mp hhead)] at ha
        exact absurd ha List.not_mem_nil
      | ptr p => exact ⟨p, g.cache, hhead, hI.cached.path p hhead, ha⟩
  | list t => exact (hI.lists.mem t a).symm
  | call t => exact ((hL t).holds.mem a).symm
  | busy t =>
    rw [(hL t).token.mem]
    constructor
    · rintro ⟨r, taken, rest, rem, hpc, hpath, ha⟩
      have hw := (hL t).here
      rw [hpc] at hw
      obtain ⟨rem', hchain, hpath'⟩ := hw.rest_path
      rw [path_unique hpath hpath', ← hchain] at ha
      exact ⟨by rw [hpc]; rfl, ha⟩
    · rintro ⟨hwalk, ha⟩
      cases hpc : c.pc t with
      | tWalk r taken rest =>
        have hw := (hL t).here
        rw [hpc] at hw
        obtain ⟨rem, hchain, hpath⟩ := hw.rest_path
        exact ⟨r, taken, rest, rem, hpc, hpath, hchain ▸ ha⟩
      | _ => rw [hpc] at hwalk; exact absurd hwalk (by simp [Pc.walks])

theorem Good.conserved {c : Conf T} (h : Good c g) : Conserved c where
  site := fun a _ => by
    simp only [h.lies_iff]
    exact ⟨g.site a, rfl, fun y hy => hy.symm⟩
  live := fun a => by
    rw [h.lies_iff, ← h.1.counted.allocated]
    simp
  once := fun a => by
    have hcount := h.1.counted.count a
    have hle := Bool.toNat_le (decide (g.site a ≠ .freed))
    omega
  owned := h.1.lists.nodup
  linked := h.1.lists.linked
  returned := fun t r l hpc => by
    have hl := h.2 t
    rw [hpc] at hl
    refine ⟨(List.nodup_append'.mp hl.holds.nodup).1, hl.here.linked, fun n hn => ?_⟩
    simpa [hn] using hl.here.limit
  takes := h.1.takes
  trace := h.1.trace

/-! ## What a step does to the head -/

/-- The head of the freelist, and the chain detached from it, in one step. -/
inductive HeadStep (t : Tid) (s : Shared T) (pc : Pc) : Shared T × Pc → Prop
  | quiet {x : Shared T × Pc} : x.1.head = s.head → x.1.detached = s.detached → HeadStep t s pc x
  | push {x : Shared T × Pc} {p q : Option Addr} : s.head = .ptr p → x.1.head = .ptr q →
      x.1.detached = s.detached → HeadStep t s pc x
  | detach {x : Shared T × Pc} (r : TakeRet) (head : Addr) : pc = .tCas r head →
      s.head = .ptr (some head) → x.1.head = .busy →
      x.1.detached = update s.detached t (s.walk s.made.length (some head)) →
      HeadStep t s pc x
  | sever {x : Shared T × Pc} (r : TakeRet) (taken : List Addr) (rest : Option Addr) :
      pc = .tWalk r taken rest → x = severed s t r taken rest → HeadStep t s pc x

theorem addAssign_head (s : Shared T) (self rhs : List Addr) :
    (s.addAssign self rhs).1.head = s.head ∧ (s.addAssign self rhs).1.detached = s.detached := by
  unfold Shared.addAssign
  split <;> exact ⟨rfl, rfl⟩

theorem took_head (s : Shared T) (t : Tid) (r : TakeRet) (cached : List Addr) :
    (took s t r cached).1.head = s.head ∧ (took s t r cached).1.detached = s.detached := by
  cases r with
  | caller limit => exact ⟨rfl, rfl⟩
  | flush => exact ⟨rfl, rfl⟩
  | acquire count blocks remaining =>
    have hadd := addAssign_head s blocks cached
    simp only [took]
    split <;> exact hadd

theorem work_head (s : Shared T) (t : Tid) (w : Work) :
    Post (fun s' => s'.head = s.head ∧ s'.detached = s.detached) (work s t w) := by
  cases w with
  | pop i | drop i | give i u =>
    simp only [work]
    split
    · exact ⟨rfl, rfl⟩
    · trivial
  | add i j =>
    simp only [work]
    split
    · rename_i self rhs _ _
      exact addAssign_head ((s.takeOut t i).takeOut t j) self rhs
    · trivial

theorem step_head (hs : step t act s pc = some x) : HeadStep t s pc x := by
  have hstay : ∀ pc' : Pc, HeadStep t s pc (s, pc') := fun _ => .quiet rfl rfl
  apply Post.of hs
  cases act with
  | call op =>
    cases pc with
    | idle =>
      cases op with
      | take limit | acquire count | recycle i =>
        simp only [step]
        split <;> first | exact HeadStep.quiet rfl rfl | trivial
      | flush => exact hstay _
    | _ => cases op <;> trivial
  | work w =>
    cases pc with
    | idle =>
      have hw := work_head s t w
      simp only [step]
      generalize work s t w = o at hw ⊢
      cases o with
      | none => trivial
      | some s' => exact HeadStep.quiet hw.1 hw.2
    | _ => trivial
  | alloc a =>
    cases pc with
    | idle | aAlloc =>
      simp only [step]
      repeat' split
      all_goals first | exact HeadStep.quiet rfl rfl | trivial
    | _ => trivial
  | spurious =>
    cases pc with
    | tCas | rPush => exact hstay _
    | _ => trivial
  | run =>
    cases pc with
    | tLoad r => exact hstay _
    | tCas r head =>
      simp only [step]
      split
      · rename_i hhead
        exact HeadStep.detach r head rfl hhead rfl rfl
      · exact hstay _
    | tWalk r taken rest =>
      simp only [step]
      split
      · split
        · exact hstay _
        · exact HeadStep.sever r taken _ rfl rfl
      · exact HeadStep.sever r taken _ rfl rfl
    | tDone r cached => exact HeadStep.quiet (took_head s t r cached).1 (took_head s t r cached).2
    | fDrop blocks freed => cases blocks <;> exact HeadStep.quiet rfl rfl
    | rReset | rLoad | rFree => exact HeadStep.quiet rfl rfl
    | rLink i b head => cases head <;> exact HeadStep.quiet rfl rfl
    | rPush i b head =>
      simp only [step]
      split
      · rename_i hhead
        exact HeadStep.push hhead rfl rfl
      · exact hstay _
    | idle | fault | aAlloc => trivial

theorem severed_head (s : Shared T) (t : Tid) (r : TakeRet) (taken : List Addr)
    (rest : Option Addr) : (severed s t r taken rest).1.detached = s.detached ∧
      ((severed s t r taken rest).1.head = s.head ∨
        ∃ p, (severed s t r taken rest).1.head = .ptr p) := by
  unfold severed
  split
  · exact ⟨rfl, Or.inl rfl⟩
  · exact ⟨rfl, Or.inr ⟨rest, rfl⟩⟩

theorem Good.takeStep {c : Conf T} (h : Good c g) {s' : Shared T} {p' : Pc}
    (hs : step t act c.sh (c.pc t) = some (s', p')) :
    TakeStep t c ⟨s', update c.pc t p'⟩ := by
  have hhead := step_head hs
  refine ⟨fun p hp hbusy => ?_, fun u hu => ?_, fun hbusy p hp => ?_⟩
  · -- only the CAS of `take` stores the token
    have hbusy : s'.head = .busy := hbusy
    cases hhead with
    | quiet h1 _ => exact absurd (hp.symm.trans (h1.symm.trans hbusy)) (by simp)
    | push _ h2 _ => exact absurd (h2.symm.trans hbusy) (by simp)
    | detach r head _ hhead _ hd =>
      have hd : s'.detached = _ := hd
      obtain rfl : p = some head := FreeHead.ptr.inj (hp.symm.trans hhead)
      have hpath := h.1.cached.path _ hp
      rwa [hd, update_self, walk_eq hpath h.1.cache_length]
    | sever r taken rest _ hx =>
      rcases severed_head c.sh t r taken rest with ⟨_, h1 | ⟨q, h1⟩⟩ <;> rw [← hx] at h1
      · exact absurd (hp.symm.trans (h1.symm.trans hbusy)) (by simp)
      · exact absurd (h1.symm.trans hbusy) (by simp)
  · cases hhead with
    | quiet _ h2 => exact congrFun h2 u
    | push _ _ h3 => exact congrFun h3 u
    | detach r head hpc _ _ hd =>
      have hd : s'.detached = _ := hd
      rw [hd, update_of_ne]
      rintro rfl
      rw [hpc] at hu
      simp [Pc.walks] at hu
    | sever r taken rest _ hx =>
      have hd := (severed_head c.sh t r taken rest).1
      rw [← hx] at hd
      exact congrFun hd u
  · -- only the end of `take` takes the token back
    have hp : s'.head = .ptr p := hp
    cases hhead with
    | quiet h1 _ => exact absurd (hbusy.symm.trans (h1.symm.trans hp)) (by simp)
    | push h1 _ _ => exact absurd (hbusy.symm.trans h1) (by simp)
    | detach r head _ hhead _ _ => exact absurd (hbusy.symm.trans hhead) (by simp)
    | sever r taken rest hpc hx =>
      have hw := (h.2 t).here
      rw [hpc] at hw hs
      have hrun : act = .run := by
        cases act with
        | run => rfl
        | _ => simp [step] at hs
      subst hrun
      rcases tWalk_cases hw hs with ⟨a, rem, _, _, hx'⟩ | ⟨rem, hchain, rfl, hstop, hne, hx'⟩
      · obtain ⟨rfl, _⟩ := Prod.mk.inj hx'
        exact absurd (hbusy.symm.trans hp) (by simp)
      · obtain ⟨z, hz⟩ : ∃ z, taken.getLast? = some z :=
          ⟨_, List.getLast?_eq_some_getLast hne⟩
        simp only [severed, hz, Prod.mk.injEq] at hx'
        obtain ⟨rfl, rfl⟩ := hx'
        obtain rfl : rem.head? = p := FreeHead.ptr.inj hp
        have htake := hw.take_ok hchain hstop hne
        have hnd := hw.nodup
        have hlinked := hw.linked
        rw [hchain] at hnd hlinked
        obtain ⟨h1, h2⟩ := linked_sever hlinked hnd hz
        obtain ⟨rem', hchain', _, hlen⟩ := htake.chain
        refine ⟨r, taken, rem.head?, rem, hpc, update_self _ _ _, hchain, hlen,
          fun hnone => ?_, h1, h2⟩
        have hall : taken = c.sh.detached t := htake.all hnone
        rw [hchain] at hall
        exact List.self_eq_append_right.mp hall

/-- **The freelist conserves blocks.**  In every configuration that any number of
threads can reach, each block is at one site and was freed at most once, and
finished calls returned what they should; and every step detaches the whole cached
chain, gives back exactly the rest of a detached chain, or leaves both alone. -/
theorem conserves {c : Conf T} (hc : (system T).Reachable c) :
    Conserved c ∧ ∀ t c', (system T).Moves t c c' → TakeStep t c c' := by
  obtain ⟨g, hg⟩ := run_ok hc
  refine ⟨hg.conserved, fun t c' hm => ?_⟩
  obtain ⟨s', p', ⟨act, hs⟩, rfl⟩ := hm
  exact hg.takeStep hs

/-- Thread 0 allocates two blocks and recycles them; thread 1 then takes one. -/
def partialTake : List (Tid × Act) :=
  [(0, .alloc 100), (0, .alloc 101)] ++
  (0, .call (.recycle 0)) :: List.replicate 4 (0, .run) ++
  (0, .call (.recycle 0)) :: List.replicate 4 (0, .run) ++
  (1, .call (.take 1)) :: List.replicate 3 (1, .run)

/-- The chain of the two blocks is detached; the next step gives back the second. -/
theorem conserves_partial_take : ∃ c c' : Conf ℕ, (system ℕ).Reachable c ∧
    (system ℕ).Moves 1 c c' ∧ c.sh.head = .busy ∧ c.sh.detached 1 = [100, 101] ∧
    c'.sh.head = .ptr (some 101) ∧ Conserved c ∧ TakeStep 1 c c' := by
  obtain ⟨c, hexec, s', p', hstep, hbusy, hdet, hhead⟩ : ∃ c : Conf ℕ,
      System.runs step partialTake (system ℕ).start = some c ∧
      ∃ s' p', step 1 .run c.sh (c.pc 1) = some (s', p') ∧ c.sh.head = .busy ∧
        c.sh.detached 1 = [100, 101] ∧ s'.head = .ptr (some 101) :=
    ⟨_, rfl, _, _, rfl, by decide +kernel, by decide +kernel, by decide +kernel⟩
  have hc : (system ℕ).Reachable c := System.runs_reachable .start hexec
  have hm : (system ℕ).Moves 1 c ⟨s', update c.pc 1 p'⟩ := ⟨s', p', ⟨.run, hstep⟩, rfl⟩
  exact ⟨c, _, hc, hm, hbusy, hdet, hhead, (conserves hc).1, (conserves hc).2 1 _ hm⟩

end FreeList
