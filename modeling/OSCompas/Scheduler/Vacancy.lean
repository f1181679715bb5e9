import OSCompas.Scheduler.Walk

/-!
# The end of a process that is in no queue

`remove_from_ready_queue` decides from the links of the PCB alone what to patch.  A process that
is in no queue is taken out all the same: its links are written over the head of its queue or over
the link of a process that waits.  The dispatch that follows may write them over once more.

* `OthersKept` — what a termination is to leave of the others;
* `StaleOk`, `TerminateOk` — the condition under which it does;
* `Vacancy` — `i` was taken out, and `y` was dispatched.

Principal results: `retired_others` and `Vacancy.dispatched_others`.
-/

set_option autoImplicit false

namespace OSCompas.Scheduler

open Function Intrusive

variable {s s' t : State} {l : Links} {qs : Queues} {k : QueueId} {p x y i a : Slot}
  {ys : List Slot} {pid : UInt32}

/-! ## The property -/

/-- The queues hold exactly the processes that are ready. -/
structure Orderly (s : State) (qs : Queues) : Prop extends Shape s qs where
  counted : Counted s.links qs
  ready : ∀ p, OnList qs p ↔ (s.pcb p).state = .ready

/-- The first queue the policy looks at that is not empty. -/
def State.firstIn (s : State) (qs : Queues) : Option QueueId := s.scan.find? fun k => qs k ≠ []

/-- The current process has the pid. -/
def State.RunsPid (s : State) (pid : UInt32) : Prop :=
  ∃ c, s.current = some c ∧ (s.pcb c).pid = pid

/-- The others keep their order, but for the one that is to run when the current process ends. -/
structure OthersKept (s s' : State) (pid : UInt32) (i : Slot) : Prop where
  stays : (s.RunsPid pid → s.firstIn (s.others i) = none) → s'.others i = s.others i
  takes : s.RunsPid pid → ∀ k, s.firstIn (s.others i) = some k → ∃ x xs,
    s.others i k = x :: xs ∧ s'.current = some x ∧ s'.others i = update (s.others i) k xs

/-- The process the policy is to pick. -/
def State.front (s : State) : Option Slot := (s.firstIn s.list).bind fun k => (s.list k).head?

/-- The dispatch takes the link apart again that was written to `a`. -/
def Mended (s : State) (i a : Slot) : Prop :=
  ∃ y, s.front = some y ∧ s.links.next y = none ∧
    (s.unmanaged y ∧ a = y ∨
      ¬ s.unmanaged y ∧ s.links.next i = some y ∧ s.links.next a = none)

/-- The links of `i`, which is in no queue, are what stands there already. -/
def StaleOk (s : State) (pid : UInt32) (i : Slot) : Prop :=
  match s.links.prev i with
  | none => skip i (s.links.next i) = (s.links.queue (s.homeQueue i)).head
  | some a => (s.pcb a).state = .ready →
      skip i (s.links.next i) = s.links.next a ∨ s.RunsPid pid ∧ Mended s i a

/-- The only process that waits does so in the queue whose count is taken down. -/
def Uncounted (s : State) (i : Slot) : Prop :=
  s.firstIn s.list = some (s.homeQueue i) ∧ (s.list (s.homeQueue i)).length = 1

/-- The removal of `i` and the dispatch after it are harmless. -/
def TerminateOk (s : State) (pid : UInt32) (i : Slot) : Prop :=
  if s.unmanaged i then
    s.RunsPid pid → s.front = some i → ∀ p, (s.pcb p).state = .ready → p = i
  else
    (s.pcb i).state = .ready ∨ StaleOk s pid i ∧ (s.RunsPid pid → ¬ Uncounted s i)

theorem terminate_eq (hf : findProcess s pid = some i) :
    (s.RunsPid pid → terminateProcess s pid = schedule { retire s i with current := none }) ∧
      (¬ s.RunsPid pid → terminateProcess s pid = some (retire s i)) := by
  unfold terminateProcess State.RunsPid
  simp only [hf, retire_current, retire_pid]
  cases s.current with
  | none => simp
  | some c =>
    by_cases hp : (s.pcb c).pid = pid <;> simp [hp]

/-! ## Counts and queues -/

theorem Orderly.mem_iff (h : Orderly s qs) : p ∈ qs (s.homeQueue p) ↔ (s.pcb p).state = .ready := by
  rw [← h.ready, h.toShape.onList_iff]

theorem Orderly.nodup (h : Orderly s qs) (k : QueueId) : (qs k).Nodup :=
  (h.threaded.queue k).nodup

theorem Orderly.chained (h : Orderly s qs) (k : QueueId) : Chained s.links.next (qs k) :=
  chained_of_linked (h.threaded.queue k).linked

theorem firstIn_eq (hf : s.firstIn qs = some k) : ∃ y ys, qs k = y :: ys := by
  have hk := List.find?_some hf
  exact List.exists_cons_of_ne_nil (of_decide_eq_true hk)

/-- A search that finds less, but not less than the first one. -/
theorem find?_shrink {α : Type} {l : List α} {p q : α → Bool} {x : α} (hp : l.find? p = some x)
    (hx : q x = true) (hqp : ∀ y, q y = true → p y = true) : l.find? q = some x := by
  obtain ⟨hpx, as, bs, rfl, has⟩ := List.find?_eq_some_iff_append.mp hp
  refine List.find?_eq_some_iff_append.mpr ⟨hx, as, bs, rfl, fun y hy => ?_⟩
  have hy' := has y hy
  simp only [Bool.not_eq_true', Bool.eq_false_iff] at hy' ⊢
  exact fun hq => hy' (hqp y hq)

theorem find?_none_shrink {α : Type} {l : List α} {p q : α → Bool} (hp : l.find? p = none)
    (hqp : ∀ y, q y = true → p y = true) : l.find? q = none := by
  rw [List.find?_eq_none] at hp ⊢
  exact fun y hy hq => hp y hy (hqp y hq)

theorem counted_pos (hc : Counted l qs) : (l.queue k).count > 0 ↔ qs k ≠ [] := by
  rw [count_pos_iff, ← List.length_pos_iff, ← hc k, ne_eq, ← UInt32.toNat_inj]
  show _ ↔ 0 < _
  have h0 : (0 : UInt32).toNat = 0 := rfl
  omega

/-- With the right counts the policy looks at the first queue that is not empty. -/
theorem pickQueue_counted (hc : Counted s.links qs) : s.pickQueue = s.firstIn qs := by
  unfold State.pickQueue State.firstIn
  congr 1
  funext k
  exact decide_eq_decide.mpr (counted_pos hc)

/-! ## A process that is in no queue -/

theorem Orderly.others_out (h : Orderly s qs) (hi : ∀ k, i ∉ qs k) : s.others i = qs :=
  others_same h.chained h.nodup hi (fun _ _ _ => rfl) fun k => (h.threaded.queue k).head_eq

theorem Orderly.not_mem (h : Orderly s qs) (hi : (s.pcb i).state ≠ .ready) (k : QueueId) :
    i ∉ qs k :=
  fun hk => hi ((h.ready i).mp ⟨k, hk⟩)

/-- What the removal of `i` writes into the link of another process. -/
theorem unlinked_next (l : Links) (k : QueueId) (hy : y ≠ i) :
    (l.unlink k i).next y = if l.prev i = some y then l.next i else l.next y := by
  rw [unlink_next, if_neg hy]

/-- **No dispatch follows**: the others keep their order exactly if the links of `i` are what
stands there already. -/
theorem retired_others (h : Orderly s qs) (hi : (s.pcb i).state ≠ .ready)
    (ht : t.links = s.links.unlink (s.homeQueue i) i)
    (hm : ∀ a, ¬ (s.RunsPid pid ∧ Mended s i a)) :
    t.others i = s.others i ↔ StaleOk s pid i := by
  have hout := h.not_mem hi
  have hne : ∀ k, ∀ z ∈ qs k, z ≠ i := fun k z hz he => hout k (he ▸ hz)
  have hend : t.links.next i = none := by
    rw [ht]
    exact (unlink_links_self _ _ _).1
  have hhead : ∀ k, (s.links.queue k).head = (qs k).head? := fun k => (h.threaded.queue k).head_eq
  have hskip : ∀ k, skip i (qs k).head? = (qs k).head? := fun k =>
    skip_of_ne fun he => hout k (List.mem_of_head? he)
  rw [h.others_out hout]
  unfold StaleOk
  cases hprev : s.links.prev i with
  | none =>
    -- only the head of the home queue is written
    rw [others_iff h.chained h.nodup hout hend fun k z hz _ => by
      rw [ht, unlinked_next _ _ (hne k z hz), hprev, if_neg (by simp)]]
    have hq : ∀ k, (t.links.queue k).head =
        if k = s.homeQueue i then s.links.next i else (qs k).head? := fun k => by
      rw [ht, unlinked_head, hprev, hhead]
      simp
    simp only [hq, hhead]
    constructor
    · intro hall
      have hk := (hall (s.homeQueue i)).1
      rwa [if_pos rfl] at hk
    · intro hk k
      refine ⟨?_, fun hmem => absurd hmem (hout k)⟩
      by_cases he : k = s.homeQueue i
      · subst he
        rwa [if_pos rfl]
      · rw [if_neg he]
        exact hskip k
  | some a =>
    -- only the link of `a` is written
    have hq : ∀ k, (t.links.queue k).head = (qs k).head? := fun k => by
      rw [ht, unlinked_head, hprev, hhead]
      simp
    rw [others_iff (a := a) h.chained h.nodup hout hend fun k z hz hza => by
      rw [ht, unlinked_next _ _ (hne k z hz), hprev, if_neg fun he => hza (Option.some.inj he).symm]]
    simp only [hq, hskip, true_and, hm a, or_false]
    have hnext : ∀ k, a ∈ qs k → t.links.next a = s.links.next i := fun k hk => by
      rw [ht, unlinked_next _ _ (hne k a hk), hprev, if_pos rfl]
    constructor
    · intro hall hready
      obtain ⟨k, hk⟩ := (h.ready a).mpr hready
      rw [← hnext k hk]
      exact hall k hk
    · intro hok k hk
      rw [hnext k hk]
      exact hok ((h.ready a).mp ⟨k, hk⟩)

/-! ## The dispatch after it -/

/-- `y` is the first of the queue `k` and is to be picked. -/
structure Heads (s : State) (qs : Queues) (k : QueueId) (y : Slot) (ys : List Slot) : Prop where
  first : s.firstIn qs = some k
  list : qs k = y :: ys

theorem Heads.front (h : Orderly s qs) (hy : Heads s qs k y ys) : s.front = some y := by
  unfold State.front
  rw [h.toShape.list, hy.first, Option.bind_some, hy.list, List.head?_cons]

theorem Heads.next (h : Orderly s qs) (hy : Heads s qs k y ys) : s.links.next y = ys.head? := by
  have hch := h.chained k
  rw [hy.list] at hch
  exact hch.1

theorem Heads.prev (h : Orderly s qs) (hy : Heads s qs k y ys) : s.links.prev y = none := by
  have hq := h.threaded.queue k
  exact hq.head_prev (hq.head_eq.trans (by rw [hy.list, List.head?_cons]))

theorem Heads.tail_iff (h : Orderly s qs) (hy : Heads s qs k y ys) :
    (s.links.queue k).tail = some y ↔ ys = [] := by
  have hq := h.threaded.queue k
  have hhead : (s.links.queue k).head = some y := by rw [hq.head_eq, hy.list, List.head?_cons]
  rw [← hhead, eq_comm, hq.head_eq_tail_iff, hy.list, List.length_cons, ← List.length_eq_zero_iff]
  omega

/-- The rest of the lists. -/
theorem Heads.rest (h : Orderly s qs) (hy : Heads s qs k y ys) (k' : QueueId) :
    Chained s.links.next (update qs k ys k') ∧ (update qs k ys k').Nodup ∧
      (∀ z ∈ update qs k ys k', z ∈ qs k' ∧ z ≠ y) := by
  have hnd := h.nodup k
  rw [hy.list] at hnd
  obtain ⟨hnotin, hnd⟩ := List.nodup_cons.mp hnd
  by_cases hk : k' = k
  · subst hk
    have hch := h.chained k'
    rw [hy.list] at hch
    rw [update_self]
    refine ⟨hch.2, hnd, fun z hz => ⟨?_, fun he => hnotin (he ▸ hz)⟩⟩
    rw [hy.list]
    exact List.mem_cons_of_mem y hz
  · rw [update_of_ne hk]
    refine ⟨h.chained k', h.nodup k', fun z hz => ⟨hz, ?_⟩⟩
    rintro rfl
    exact hk (h.threaded.disjoint z _ _ hz (by simp [hy.list]))

/-- Two processes with the same successor have none. -/
theorem Orderly.next_inj (h : Orderly s qs) (hp : OnList qs p) (hx : OnList qs x) (hne : p ≠ x)
    (he : s.links.next p = s.links.next x) : s.links.next p = none := by
  obtain ⟨k, hp⟩ := hp
  obtain ⟨k', hx⟩ := hx
  cases hn : s.links.next p with
  | none => rfl
  | some d =>
    obtain ⟨-, h1⟩ := (h.threaded.queue k).next_mem hp hn
    obtain ⟨-, h2⟩ := (h.threaded.queue k').next_mem hx (he.symm.trans hn)
    exact absurd (Option.some.inj (h1.symm.trans h2)) hne

/-- The first process is nobody's successor. -/
theorem Heads.not_next (h : Orderly s qs) (hy : Heads s qs k y ys) (hp : OnList qs p) :
    s.links.next p ≠ some y := fun he => by
  obtain ⟨k', hp⟩ := hp
  obtain ⟨-, hq⟩ := (h.threaded.queue k').next_mem hp he
  exact nomatch (hy.prev h).symm.trans hq

theorem Heads.mended_iff (h : Orderly s qs) (hy : Heads s qs k y ys) : Mended s i a ↔
    ys = [] ∧ (s.unmanaged y ∧ a = y ∨
      ¬ s.unmanaged y ∧ s.links.next i = some y ∧ s.links.next a = none) := by
  unfold Mended
  rw [hy.front h]
  constructor
  · rintro ⟨y', he, hn, hcase⟩
    obtain rfl := Option.some.inj he
    rw [hy.next h, List.head?_eq_none_iff] at hn
    exact ⟨hn, hcase⟩
  · rintro ⟨hnil, hcase⟩
    exact ⟨y, rfl, by rw [hy.next h, hnil, List.head?_nil], hcase⟩

/-- `i`, which was in no queue, was taken out (`t`), and `y` was dispatched (`s'`). -/
structure Vacancy (s t s' : State) (qs : Queues) (i : Slot) (k : QueueId) (y : Slot)
    (ys : List Slot) : Prop where
  orderly : Orderly s qs
  idle : (s.pcb i).state ≠ .ready
  heads : Heads s qs k y ys
  procs : SameProcs s t
  links : t.links = s.links.unlink (s.homeQueue i) i
  picked : (t.links.queue k).head = some y
  dispatched : Dispatched t s' k y

namespace Vacancy

theorem mem (v : Vacancy s t s' qs i k y ys) : y ∈ qs k := by simp [v.heads.list]

theorem ne (v : Vacancy s t s' qs i k y ys) : y ≠ i := fun he =>
  v.orderly.not_mem v.idle k (he ▸ v.mem)

theorem rest (v : Vacancy s t s' qs i k y ys) {k' : QueueId} {z : Slot}
    (hz : z ∈ update qs k ys k') : z ∈ qs k' ∧ z ≠ y ∧ z ≠ i := by
  obtain ⟨h1, h2⟩ := (v.heads.rest v.orderly k').2.2 z hz
  exact ⟨h1, h2, fun he => v.orderly.not_mem v.idle k' (he ▸ h1)⟩

theorem skip_rest (v : Vacancy s t s' qs i k y ys) (k' : QueueId) :
    skip i (update qs k ys k').head? = (update qs k ys k').head? :=
  skip_of_ne fun he => (v.rest (List.mem_of_head? he)).2.2 rfl

theorem skip_head (v : Vacancy s t s' qs i k y ys) : skip i ys.head? = ys.head? := by
  have hk := v.skip_rest k
  rwa [update_self] at hk

theorem unlinked_prev (v : Vacancy s t s' qs i k y ys) :
    t.links.prev y = if s.links.next i = some y then s.links.prev i else none := by
  rw [v.links, unlink_prev, if_neg v.ne, v.heads.prev v.orderly]

theorem next_y (v : Vacancy s t s' qs i k y ys) :
    t.links.next y = if s.links.prev i = some y then s.links.next i else ys.head? := by
  rw [v.links, unlinked_next _ _ v.ne, v.heads.next v.orderly]

/-- What the links of `y` show after it was taken off was written by the removal of `i`. -/
theorem prevOff_some (v : Vacancy s t s' qs i k y ys) (hp : t.links.prevOff k y = some p) :
    s.links.next i = some y ∧ s.links.prev i = some p := by
  unfold Links.prevOff at hp
  rw [v.unlinked_prev] at hp
  by_cases hn : s.links.next i = some y
  · refine ⟨hn, ?_⟩
    rw [if_pos hn] at hp
    by_cases hw : (t.links.queue k).tail ≠ some y ∧ t.links.next y = some y
    · rw [if_pos hw] at hp
      cases hp
    · rwa [if_neg hw] at hp
  · rw [if_neg hn, ite_self] at hp
    cases hp

theorem next_self (v : Vacancy s t s' qs i k y ys) (hi : s.links.prev i ≠ some i) :
    s'.links.next i = none := by
  rw [v.dispatched.next i (Ne.symm v.ne), if_neg fun hc => hi (v.prevOff_some hc.2).2, v.links]
  exact (unlink_links_self _ _ _).1

/-- A link that was not written stays. -/
theorem next_frame (v : Vacancy s t s' qs i k y ys) (hpi : p ≠ i) (hpy : p ≠ y)
    (hprev : s.links.prev i ≠ some p) : s'.links.next p = s.links.next p := by
  rw [v.dispatched.next p hpy, if_neg fun hc => hprev (v.prevOff_some hc.2).2, v.links,
    unlinked_next _ _ hpi, if_neg hprev]

/-- The link that was written, after the dispatch. -/
theorem next_written (v : Vacancy s t s' qs i k y ys) (hpi : p ≠ i) (hpy : p ≠ y)
    (hprev : s.links.prev i = some p) : s'.links.next p =
      if ¬ s.unmanaged y ∧ s.links.next i = some y then ys.head? else s.links.next i := by
  have hne : s.links.prev i ≠ some y := fun he => hpy (Option.some.inj (hprev.symm.trans he))
  have hnext : t.links.next y = ys.head? := by rw [v.next_y, if_neg hne]
  have hself : t.links.next y ≠ some y := by
    rw [hnext, ← v.heads.next v.orderly]
    exact v.heads.not_next v.orderly ⟨k, v.mem⟩
  have hoff : t.links.prevOff k y = some p ↔ s.links.next i = some y := by
    refine ⟨fun hoff => (v.prevOff_some hoff).1, fun hn => ?_⟩
    unfold Links.prevOff
    rw [if_neg fun hc => hself hc.2, v.unlinked_prev, if_pos hn, hprev]
  rw [v.dispatched.next p hpy]
  simp only [hoff, v.procs.unmanaged, hnext]
  rw [v.links, unlinked_next _ _ hpi, if_pos hprev]

theorem tail_iff (v : Vacancy s t s' qs i k y ys) : (t.links.queue k).tail = some y ↔
    if k = s.homeQueue i ∧ s.links.next i = none then s.links.prev i = some y else ys = [] := by
  rw [v.links, unlinked_tail]
  by_cases hw : k = s.homeQueue i ∧ s.links.next i = none
  · simp [hw]
  · rw [if_neg hw, if_neg hw, v.heads.tail_iff v.orderly]

/-- The other heads after the removal and the dispatch. -/
theorem head_frame (v : Vacancy s t s' qs i k y ys) {k' : QueueId} (hk' : k' ≠ k) :
    (s'.links.queue k').head =
      if k' = s.homeQueue i ∧ s.links.prev i = none then s.links.next i
      else (update qs k ys k').head? := by
  rw [v.dispatched.queue k' hk', v.links, unlinked_head, update_of_ne hk',
    (v.orderly.threaded.queue k').head_eq]

/-- Unless the link of `y` itself was written, its successor becomes the head. -/
theorem head_of_other (v : Vacancy s t s' qs i k y ys) (hprev : s.links.prev i ≠ some y) :
    (s'.links.queue k).head = (update qs k ys k).head? := by
  have hnext : t.links.next y = ys.head? := by rw [v.next_y, if_neg hprev]
  have hoff : t.links.headOff k y = ys.head? := by
    unfold Links.headOff
    rw [hnext]
    by_cases htl : (t.links.queue k).tail = some y
    · rw [if_pos htl]
      rw [v.tail_iff] at htl
      by_cases hw : k = s.homeQueue i ∧ s.links.next i = none
      · rw [if_pos hw] at htl
        exact absurd htl hprev
      · rw [if_neg hw] at htl
        rw [htl, List.head?_nil]
    · rw [if_neg htl]
  rw [v.dispatched.head, hnext, hoff, ite_self, update_self]

/-- The link of `y` itself was written. -/
theorem head_of_self (v : Vacancy s t s' qs i k y ys) (hprev : s.links.prev i = some y) :
    skip i (s'.links.queue k).head = ys.head? ↔
      skip i (s.links.next i) = ys.head? ∨
        ys = [] ∧ (s.unmanaged y ∨ s.links.next i = some y) := by
  have hskip0 : skip i none = none := rfl
  have hhead := v.dispatched.head
  unfold Links.headOff Links.prevOff at hhead
  simp only [v.next_y, v.unlinked_prev, hprev, if_true, v.procs.unmanaged] at hhead
  have htail := v.tail_iff
  simp only [hprev, if_true_left] at htail
  by_cases hnil : ys = []
  · -- the queue is empty now; `y` is taken out once more unless its priority is too low
    rw [htail.mpr fun _ => hnil] at hhead
    rw [hnil, List.head?_nil, hhead]
    by_cases hu : s.unmanaged y
    · simp [hu, hskip0]
    · by_cases hn : s.links.next i = some y
      · simp [hu, hn, hskip0]
      · simp [hu, hn]
  · have hval : (s'.links.queue k).head = s.links.next i := by
      rw [hhead]
      by_cases htl : (t.links.queue k).tail = some y
      · have hw : k = s.homeQueue i ∧ s.links.next i = none := by
          by_contra hw
          exact hnil (htail.mp htl hw)
        simp [htl, hw.2]
      · by_cases hn : s.links.next i = some y <;> simp [htl, hn]
    rw [hval]
    simp [hnil]

/-! ## The four cases -/

/-- Only the head of the home queue was written. -/
theorem others_of_head (v : Vacancy s t s' qs i k y ys) (hprev : s.links.prev i = none) :
    s'.others i = update qs k ys ↔
      skip i (s.links.next i) = (s.links.queue (s.homeQueue i)).head := by
  have hrest := v.heads.rest v.orderly
  rw [others_iff (a := i) (fun k' => (hrest k').1) (fun k' => (hrest k').2.1)
    (fun k' hk' => (v.rest hk').2.2 rfl) (v.next_self (by simp [hprev])) fun k' z hz _ =>
      v.next_frame (v.rest hz).2.2 (v.rest hz).2.1 (by simp [hprev])]
  have hself := v.head_of_other (by simp [hprev])
  have hother : ∀ k', k' ≠ k → k' ≠ s.homeQueue i →
      (s'.links.queue k').head = (update qs k ys k').head? := fun k' hk' hi' => by
    rw [v.head_frame hk', if_neg fun hc => hi' hc.1]
  have hall : (∀ k', skip i (s'.links.queue k').head = (update qs k ys k').head?) ↔
      skip i (s.links.next i) = (s.links.queue (s.homeQueue i)).head := by
    by_cases hk : k = s.homeQueue i
    · -- `y` is picked from the home queue, so it is its head still
      have hn : s.links.next i = some y := by
        have hpick := v.picked
        rwa [v.links, unlinked_head, if_pos ⟨hk, hprev⟩] at hpick
      rw [← hk, hn, skip_of_ne fun he => v.ne (Option.some.inj he),
        (v.orderly.threaded.queue k).head_eq, v.heads.list, List.head?_cons]
      refine iff_of_true (fun k' => ?_) rfl
      by_cases hk' : k' = k
      · rw [hk', hself, v.skip_rest]
      · rw [hother k' hk' (hk ▸ hk'), v.skip_rest]
    · have hlist : (update qs k ys (s.homeQueue i)).head? =
          (s.links.queue (s.homeQueue i)).head := by
        rw [update_of_ne (Ne.symm hk), (v.orderly.threaded.queue _).head_eq]
      have hhome := v.head_frame (Ne.symm hk)
      rw [if_pos ⟨rfl, hprev⟩] at hhome
      constructor
      · intro hall
        have hh := hall (s.homeQueue i)
        rwa [hhome, hlist] at hh
      · intro hh k'
        by_cases hk' : k' = k
        · rw [hk', hself, v.skip_rest]
        · by_cases hi' : k' = s.homeQueue i
          · rw [hi', hhome, hlist, hh]
          · rw [hother k' hk' hi', v.skip_rest]
  rw [← hall]
  exact forall_congr' fun k' => and_iff_left fun hk' => absurd rfl (v.rest hk').2.2

theorem head_other (v : Vacancy s t s' qs i k y ys) (hprev : s.links.prev i = some a)
    (k' : QueueId) (hk' : k' ≠ k) : (s'.links.queue k').head = (update qs k ys k').head? := by
  rw [v.head_frame hk', hprev]
  simp

/-- The link of the process that is dispatched was written. -/
theorem others_of_self (v : Vacancy s t s' qs i k y ys) (hprev : s.links.prev i = some y) :
    s'.others i = update qs k ys ↔ skip i (s.links.next i) = s.links.next y ∨ Mended s i y := by
  have hrest := v.heads.rest v.orderly
  have hyi : s.links.prev i ≠ some i := fun he => v.ne (Option.some.inj (hprev.symm.trans he))
  rw [others_iff (a := i) (fun k' => (hrest k').1) (fun k' => (hrest k').2.1)
    (fun k' hk' => (v.rest hk').2.2 rfl) (v.next_self hyi) fun k' z hz _ =>
      v.next_frame (v.rest hz).2.2 (v.rest hz).2.1 fun he =>
        (v.rest hz).2.1 (Option.some.inj (he.symm.trans hprev))]
  have hhead : (∀ k', skip i (s'.links.queue k').head = (update qs k ys k').head? ∧
      (i ∈ update qs k ys k' → skip i (s'.links.next i) = s.links.next i)) ↔
      skip i (s'.links.queue k).head = ys.head? := by
    constructor
    · intro hall
      have hk := (hall k).1
      rwa [update_self] at hk
    · intro hk k'
      refine ⟨?_, fun hk' => absurd rfl (v.rest hk').2.2⟩
      by_cases hk' : k' = k
      · rw [hk', update_self, hk]
      · rw [v.head_other hprev k' hk', v.skip_rest]
  rw [hhead, v.head_of_self hprev, v.heads.next v.orderly, v.heads.mended_iff v.orderly,
    v.heads.next v.orderly]
  refine or_congr_right (and_congr_right fun hnil => ?_)
  simp only [hnil, List.head?_nil, and_true]
  tauto

/-- The link of a process that goes on waiting was written. -/
theorem others_of_link (v : Vacancy s t s' qs i k y ys) (hprev : s.links.prev i = some a)
    (ha : (s.pcb a).state = .ready) (hay : a ≠ y) : s'.others i = update qs k ys ↔
      skip i (s.links.next i) = s.links.next a ∨ Mended s i a := by
  have hrest := v.heads.rest v.orderly
  have hon : OnList qs a := (v.orderly.ready a).mpr ha
  have hai : a ≠ i := fun he => v.idle (he ▸ ha)
  have hmem : ∃ k', a ∈ update qs k ys k' := by
    obtain ⟨k', hk'⟩ := hon
    refine ⟨k', ?_⟩
    by_cases he : k' = k
    · rw [he, v.heads.list] at hk'
      rw [he, update_self]
      exact (List.mem_cons.mp hk').resolve_left hay
    · rwa [update_of_ne he]
  have hself := v.head_of_other fun he => hay (Option.some.inj (hprev.symm.trans he))
  rw [others_iff (a := a) (fun k' => (hrest k').1) (fun k' => (hrest k').2.1)
    (fun k' hk' => (v.rest hk').2.2 rfl)
    (v.next_self fun he => hai (Option.some.inj (hprev.symm.trans he))) fun k' z hz hza =>
      v.next_frame (v.rest hz).2.2 (v.rest hz).2.1 fun he =>
        hza (Option.some.inj (he.symm.trans hprev))]
  have hlink : (∀ k', skip i (s'.links.queue k').head = (update qs k ys k').head? ∧
      (a ∈ update qs k ys k' → skip i (s'.links.next a) = s.links.next a)) ↔
      skip i (s'.links.next a) = s.links.next a := by
    constructor
    · intro hall
      obtain ⟨k', hk'⟩ := hmem
      exact (hall k').2 hk'
    · intro hk k'
      refine ⟨?_, fun _ => hk⟩
      by_cases hk' : k' = k
      · rw [hk', hself, v.skip_rest]
      · rw [v.head_other hprev k' hk', v.skip_rest]
  rw [hlink, v.next_written hai hay hprev, v.heads.mended_iff v.orderly]
  by_cases hc : ¬ s.unmanaged y ∧ s.links.next i = some y
  · -- the dispatch writes the successor of `y` there
    have hyskip : skip i (some y) ≠ s.links.next a := by
      rw [skip_of_ne fun he => v.ne (Option.some.inj he)]
      exact (v.heads.not_next v.orderly hon).symm
    rw [if_pos hc, hc.2, v.skip_head]
    simp only [hyskip, false_or, hc.1, false_and, not_false_eq_true, true_and]
    constructor
    · intro he
      have hnone := v.orderly.next_inj hon ⟨k, v.mem⟩ hay
        ((v.heads.next v.orderly).trans he).symm
      rw [hnone, List.head?_eq_none_iff] at he
      exact ⟨he, hnone⟩
    · rintro ⟨hnil, hnone⟩
      rw [hnil, hnone, List.head?_nil]
  · rw [if_neg hc]
    refine (or_iff_left fun hm => ?_).symm
    rcases hm.2 with ⟨-, he⟩ | ⟨hu, hn, -⟩
    · exact hay he
    · exact hc ⟨hu, hn⟩

/-- The link of a process that does not wait was written. -/
theorem others_of_free (v : Vacancy s t s' qs i k y ys) (hprev : s.links.prev i = some a)
    (ha : (s.pcb a).state ≠ .ready) : s'.others i = update qs k ys := by
  have hrest := v.heads.rest v.orderly
  have hnot : ∀ {p : Slot}, OnList qs p → s.links.prev i ≠ some p := fun hp he =>
    ha (Option.some.inj (hprev.symm.trans he) ▸ (v.orderly.ready _).mp hp)
  have hself := v.head_of_other (hnot ⟨k, v.mem⟩)
  refine others_same (fun k' => (hrest k').1) (fun k' => (hrest k').2.1)
    (fun k' hk' => (v.rest hk').2.2 rfl) (fun k' z hz => ?_) fun k' => ?_
  · exact v.next_frame (v.rest hz).2.2 (v.rest hz).2.1 (hnot ⟨k', (v.rest hz).1⟩)
  · by_cases hk' : k' = k
    · rw [hk', hself]
    · exact v.head_other hprev k' hk'

/-- **A dispatch follows**: besides, it may take the link that was written apart again. -/
theorem dispatched_others (v : Vacancy s t s' qs i k y ys) (hrun : s.RunsPid pid) :
    s'.others i = update qs k ys ↔ StaleOk s pid i := by
  unfold StaleOk
  cases hprev : s.links.prev i with
  | none => exact v.others_of_head hprev
  | some a =>
    simp only [hrun, true_and]
    by_cases ha : (s.pcb a).state = .ready
    · simp only [ha, true_implies]
      by_cases hay : a = y
      · subst hay
        exact v.others_of_self hprev
      · exact v.others_of_link hprev ha hay
    · exact iff_of_true (v.others_of_free hprev ha) fun hr => absurd hr ha

end Vacancy

end OSCompas.Scheduler
