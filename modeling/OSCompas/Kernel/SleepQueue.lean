import OSCompas.Kernel.Work
import OSCompas.Lib.Linked

/-!
# The sleep queue, node by node

`check_sleeping_processes` takes nodes out of the list while it walks along it.  Here the queue is
the nodes it consists of; the loop of `Kernel.Model` works on the list of their processes.

* `SleepNodes` — `sleep_queue` and its nodes;
* `checkSleepingWhile` — the loop, with a bound on its rounds;
* `WakesSleepers` — the property.

Principal results: `checkSleepingWhile_spec` (the loop does what the list loop does, and `count`
stays), `checkSleepingWhile_joins` and `wakes_sleepers_iff`.
-/

set_option autoImplicit false

namespace OSCompas.Kernel

open Function Linked Runs

/-- `sleep_queue`, and the fields `pcb` and `next` of every node. -/
structure SleepNodes (ν : Type) where
  pcb : ν → Slot
  next : ν → Option ν
  head : Option ν
  tail : Option ν
  count : UInt32

section Code

variable {ν : Type} [DecidableEq ν] (H : Helpers)

/-- The node behind `prev`, or the first one if there is no `prev`, gives way to `next`. -/
def SleepNodes.unlink (q : SleepNodes ν) (prev next : Option ν) : SleepNodes ν :=
  let q := match prev with
    | some x => { q with next := update q.next x next }
    | none => { q with head := next }
  if next = none then { q with tail := prev } else q

/-- The loop of `check_sleeping_processes`, for at most as many rounds as `fuel` says. -/
def checkSleepingWhile : Nat → State → SleepNodes ν → Option ν → Option ν →
    Option (State × SleepNodes ν)
  | _, s, q, _, none => some (s, q)
  | 0, _, _, _, some _ => none
  | fuel + 1, s, q, prev, some node =>
    let p := q.pcb node
    if (s.pcb p).deadline ≤ s.systemTicks then
      let next := q.next node
      checkSleepingWhile fuel (addToReadyQueueInternal H (s.setState H p .ready) p)
        (q.unlink prev next) prev next
    else checkSleepingWhile fuel s q (some node) (q.next node)

end Code

variable {ν : Type} [DecidableEq ν] {H : Helpers} {lv : UInt8 → Fin MAX_PRIORITY_LEVELS}
  {s s' : State} {q q' : SleepNodes ν} {kept l : List ν} {n : ν} {fuel : Nat}

/-! ## The property -/

/-- The deadline of the node's process is reached. -/
def SleepNodes.Due (q : SleepNodes ν) (s : State) (n : ν) : Prop :=
  (s.pcb (q.pcb n)).deadline ≤ s.systemTicks

instance (q : SleepNodes ν) (s : State) : DecidablePred (q.Due s) :=
  fun n => inferInstanceAs (Decidable ((s.pcb (q.pcb n)).deadline ≤ s.systemTicks))

/-- The nodes whose process sleeps on. -/
def SleepNodes.asleep (q : SleepNodes ν) (s : State) (l : List ν) : List ν :=
  l.filter fun n => ¬ q.Due s n

/-- The processes that are woken, in order. -/
def SleepNodes.woken (q : SleepNodes ν) (s : State) (l : List ν) : List Slot :=
  (l.filter fun n => q.Due s n).map q.pcb

/-- The processes `l` are ready, and appended in order to the ready structure of the policy. -/
structure Joined (lv : UInt8 → Fin MAX_PRIORITY_LEVELS) (s s' : State) (l : List Slot) : Prop where
  ready : ∀ p ∈ l, (s'.pcb p).state = .ready
  queues : s.config.schedulerType = .mlfq → ∀ i,
    s'.mlfq.queues i = s.mlfq.queues i ++ l.filter fun p => lv (s.pcb p).queueLevel = i
  queue : s.config.schedulerType ≠ .mlfq → s'.readyQueue = s.readyQueue ++ l

/-- `check_sleeping_processes` filters the nodes `l` of the queue. -/
structure WakesSleepers (H : Helpers) (lv : UInt8 → Fin MAX_PRIORITY_LEVELS) (s : State)
    (q : SleepNodes ν) (l : List ν) : Prop where
  returns : ∃ fuel s' q', checkSleepingWhile H fuel s q none q.head = some (s', q') ∧
    IsList q'.next q'.head q'.tail (q.asleep s l) ∧ q'.pcb = q.pcb ∧
    q'.count.toNat = (q.asleep s l).length ∧ Joined lv s s' (q.woken s l)

/-! ## One round -/

@[simp] theorem unlink_pcb {prev next : Option ν} : (q.unlink prev next).pcb = q.pcb := by
  unfold SleepNodes.unlink
  dsimp only
  split <;> split <;> rfl

@[simp] theorem unlink_count {prev next : Option ν} : (q.unlink prev next).count = q.count := by
  unfold SleepNodes.unlink
  dsimp only
  split <;> split <;> rfl

/-- **Taking out the node behind `kept`.** -/
theorem unlink_isList (h : IsList q.next q.head q.tail (kept ++ n :: l)) :
    let q' := q.unlink kept.getLast? (q.next n)
    IsList q'.next q'.head q'.tail (kept ++ l) ∧
      q'.tail = if l = [] then kept.getLast? else q.tail := by
  have hn := h.next_middle
  have hend := h.next_none_iff
  intro q'
  have htail : q'.tail = if l = [] then kept.getLast? else q.tail := by
    show (q.unlink kept.getLast? (q.next n)).tail = _
    unfold SleepNodes.unlink
    simp only [hend]
    cases kept.getLast? <;> split <;> rfl
  refine ⟨?_, htail⟩
  have hhead : q'.head = if kept = [] then l.head? else q.head := by
    show (q.unlink kept.getLast? (q.next n)).head = _
    unfold SleepNodes.unlink
    rcases List.eq_nil_or_concat kept with rfl | ⟨k, t, rfl⟩
    · simp only [List.getLast?_nil, hn]
      split <;> rfl
    · simp only [List.concat_eq_append, List.getLast?_append_of_ne_nil _ (List.cons_ne_nil t []),
        List.getLast?_singleton]
      split <;> simp
  have hnext : q'.next = match kept.getLast? with
      | some x => update q.next x (q.next n)
      | none => q.next := by
    show (q.unlink kept.getLast? (q.next n)).next = _
    unfold SleepNodes.unlink
    cases kept.getLast? <;> dsimp only <;> split <;> rfl
  rw [hhead, htail]
  apply h.unlink
  · intro t ht
    rw [hnext, ht, hn]
    exact update_self _ _ _
  · intro y hy
    rw [hnext]
    cases hk : kept.getLast? with
    | none => rfl
    | some x =>
      have hyx : y ≠ x := fun he => hy (he ▸ hk)
      exact update_of_ne hyx _ _

/-- A process is queued wherever it sleeps. -/
theorem add_sleepQueue (H : Helpers) (s : State) (w : WaitQueue) (p : Slot) :
    addToReadyQueueInternal H { s with sleepQueue := w } p =
      { addToReadyQueueInternal H s p with sleepQueue := w } := by
  unfold addToReadyQueueInternal
  have hst : (State.pcb { s with sleepQueue := w } p) = s.pcb p := rfl
  rw [hst]
  split
  · rfl
  · dsimp only
    cases s.config.schedulerType <;> rfl

/-! ## The loop -/

/-- The queue as `Kernel.Model` has it, if its nodes are `l`. -/
def SleepNodes.view (q : SleepNodes ν) (l : List ν) : WaitQueue :=
  ⟨l.map q.pcb, q.tail.map q.pcb, q.count⟩

omit [DecidableEq ν] in
/-- Waking the process of one node does not change which nodes are due. -/
theorem asleep_woken_one (hH : H.Complete) (s : State) (q q' : SleepNodes ν) (p : Slot)
    (l : List ν) (hp : q'.pcb = q.pcb) :
    q'.asleep (addToReadyQueueInternal H (s.setState H p .ready) p) l = q.asleep s l ∧
      q'.woken (addToReadyQueueInternal H (s.setState H p .ready) p) l = q.woken s l := by
  have hw := woken_one hH s p s.sleepQueue
  have hdue : ∀ n, q'.Due (addToReadyQueueInternal H (s.setState H p .ready) p) n ↔ q.Due s n := by
    intro n
    have hpcb := hw.pcb (q.pcb n)
    have hticks := hw.ticks
    unfold SleepNodes.Due
    rw [hp]
    have hdl : ((addToReadyQueueInternal H (s.setState H p .ready) p).pcb (q.pcb n)).deadline =
        (s.pcb (q.pcb n)).deadline := by
      refine (congrArg Pcb.deadline hpcb).trans ?_
      split <;> rfl
    have ht : (addToReadyQueueInternal H (s.setState H p .ready) p).systemTicks = s.systemTicks :=
      hticks
    rw [hdl, ht]
  unfold SleepNodes.asleep SleepNodes.woken
  simp only [hdue, hp, and_self]

/-- **The loop over the nodes does what the loop over their processes does**, and `count` stays
what it was. -/
theorem checkSleepingWhile_spec (hH : H.Complete) (kept : List ν)
    (hq : IsList q.next q.head q.tail (kept ++ l)) : ∃ s' q',
    checkSleepingWhile H l.length s q kept.getLast? l.head? = some (s', q') ∧
    IsList q'.next q'.head q'.tail (kept ++ q.asleep s l) ∧ q'.pcb = q.pcb ∧ q'.count = q.count ∧
    { s' with sleepQueue := q'.view (kept ++ q.asleep s l) } =
      checkSleepingLoop H { s with sleepQueue := q.view (kept ++ l) } (kept.map q.pcb)
        (l.map q.pcb) := by
  induction l generalizing s q kept with
  | nil => exact ⟨s, q, rfl, hq, rfl, rfl, rfl⟩
  | cons n rest ih =>
    have hnext := hq.next_middle
    simp only [List.length_cons, List.head?_cons, List.map_cons]
    unfold checkSleepingWhile checkSleepingLoop
    dsimp only
    by_cases hd : (s.pcb (q.pcb n)).deadline ≤ s.systemTicks
    · have hd' : (State.pcb { s with sleepQueue := q.view (kept ++ n :: rest) }
          (q.pcb n)).deadline ≤ s.systemTicks := hd
      rw [if_pos hd, if_pos hd']
      obtain ⟨hlist, htail⟩ := unlink_isList hq
      obtain ⟨hsleep, -⟩ := asleep_woken_one hH s q (q.unlink kept.getLast? (q.next n)) (q.pcb n)
        rest unlink_pcb
      obtain ⟨s', q', hrun, hq', hpcb, hcount, he⟩ :=
        ih (s := addToReadyQueueInternal H (s.setState H (q.pcb n) .ready) (q.pcb n)) kept hlist
      rw [hsleep] at hq' he
      have hfilter : q.asleep s (n :: rest) = q.asleep s rest :=
        List.filter_cons_of_neg (by simpa [SleepNodes.Due] using hd)
      rw [hfilter, hnext]
      rw [hnext] at hrun hpcb hcount he htail
      refine ⟨s', q', hrun, hq', hpcb.trans unlink_pcb, hcount.trans unlink_count, he.trans ?_⟩
      rw [unlink_pcb]
      -- the list loop takes the same node out of its view of the queue
      congr 1
      have hw : (q.unlink kept.getLast? rest.head?).view (kept ++ rest) =
          { q.view (kept ++ n :: rest) with
          nodes := kept.map q.pcb ++ rest.map q.pcb
          tail := if rest.map q.pcb = [] then (kept.map q.pcb).getLast?
            else (q.view (kept ++ n :: rest)).tail } := by
        unfold SleepNodes.view
        rw [unlink_pcb, unlink_count, htail, List.map_append, List.getLast?_map]
        simp only [List.map_eq_nil_iff, apply_ite (Option.map q.pcb)]
      rw [hw, ← add_sleepQueue]
      rfl
    · have hd' : ¬ (State.pcb { s with sleepQueue := q.view (kept ++ n :: rest) }
          (q.pcb n)).deadline ≤ s.systemTicks := hd
      rw [if_neg hd, if_neg hd']
      obtain ⟨s', q', hrun, hq', hpcb, hcount, he⟩ :=
        ih (s := s) (q := q) (kept ++ [n]) (by simpa using hq)
      have hfilter : q.asleep s (n :: rest) = n :: q.asleep s rest :=
        List.filter_cons_of_pos (by simpa [SleepNodes.Due] using hd)
      rw [hfilter, hnext]
      refine ⟨s', q', by simpa using hrun, by simpa using hq', hpcb, hcount, ?_⟩
      simpa using he

/-! ## The ready structure -/

/-- One woken process is appended at its level. -/
theorem woken_one_level (hH : H.Complete) (hlv : H.Levels lv) (w : WaitQueue) (p : Slot)
    (ht : s.config.schedulerType = .mlfq) (i : Fin MAX_PRIORITY_LEVELS) :
    (addToReadyQueueInternal H (State.setState H { s with sleepQueue := w } p .ready)
      p).mlfq.queues i =
      s.mlfq.queues i ++ if lv (s.pcb p).queueLevel = i then [p] else [] := by
  have hp : (State.setState H { s with sleepQueue := w } p .ready).pcb p =
      { s.pcb p with state := .ready } := by
    unfold State.setState
    rw [setPcb_self, hH.pcbSetState_eq]
    rfl
  unfold addToReadyQueueInternal
  rw [if_neg (by rw [hp]; simp)]
  have hconfig : (State.setState H { s with sleepQueue := w } p .ready).config = s.config := rfl
  rw [hconfig, ht, hp]
  show (H.mlfqEnqueue s.mlfq p (s.pcb p).queueLevel).queues i = _
  rw [hlv.append]
  by_cases hi : lv (s.pcb p).queueLevel = i
  · subst hi
    rw [update_self, if_pos rfl]
  · rw [update_of_ne (Ne.symm hi), if_neg hi, List.append_nil]

/-- **Under MLFQ the loop appends the processes that are due**, each at its level, in order. -/
theorem checkSleepingLoop_levels (hH : H.Complete) (hlv : H.Levels lv)
    (ht : s.config.schedulerType = .mlfq) (kept l : List Slot) (i : Fin MAX_PRIORITY_LEVELS) :
    (checkSleepingLoop H s kept l).mlfq.queues i = s.mlfq.queues i ++
      (l.filter fun p => (s.pcb p).deadline ≤ s.systemTicks).filter fun p =>
        lv (s.pcb p).queueLevel = i := by
  induction l generalizing s kept with
  | nil => exact (List.append_nil _).symm
  | cons p rest ih =>
    unfold checkSleepingLoop
    by_cases hd : (s.pcb p).deadline ≤ s.systemTicks
    · rw [if_pos hd, List.filter_cons_of_pos (by simpa using hd)]
      set w : WaitQueue := { s.sleepQueue with
        nodes := kept ++ rest
        tail := if rest = [] then kept.getLast? else s.sleepQueue.tail }
      have hw := woken_one hH s p w
      dsimp only
      rw [ih (by rw [hw.config]; exact ht), woken_one_level hH hlv w p ht]
      -- the rest is due, and queued, as before
      have hsame : ∀ q, ((addToReadyQueueInternal H
          (State.setState H { s with sleepQueue := w } p .ready) p).pcb q).deadline =
            (s.pcb q).deadline ∧ ((addToReadyQueueInternal H
          (State.setState H { s with sleepQueue := w } p .ready) p).pcb q).queueLevel =
            (s.pcb q).queueLevel := by
        intro q
        rw [hw.pcb]
        split <;> exact ⟨rfl, rfl⟩
      simp only [hsame, hw.ticks, List.append_assoc]
      congr 1
      by_cases hi : lv (s.pcb p).queueLevel = i
      · simp [hi]
      · simp [hi]
    · rw [if_neg hd, List.filter_cons_of_neg (by simpa using hd)]
      exact ih ht _

/-- **The woken processes join the ready structure**, unless the type is none of the three. -/
theorem checkSleepingLoop_joined (hH : H.Complete) (hlv : H.Levels lv)
    (ht : s.config.schedulerType ≠ .other) (kept l : List Slot) :
    Joined lv s (checkSleepingLoop H s kept l)
      (l.filter fun p => (s.pcb p).deadline ≤ s.systemTicks) := by
  have hw := checkSleepingLoop_woken (s := s) (l := l) hH kept
  refine ⟨?_, ?_, ?_⟩
  · intro p hp
    rw [hw.pcb, if_pos hp]
  · intro hm i
    exact checkSleepingLoop_levels hH hlv hm kept l i
  · intro hm
    rw [hw.queue hm, if_neg ht]

/-- **Everything but the count**: the loop returns, leaves the sleepers in order between the two
ends, and appends the others unless the type is none of the three. -/
theorem checkSleepingWhile_joins (hH : H.Complete) (hlv : H.Levels lv)
    (hq : IsList q.next q.head q.tail l) :
    ∃ s' q', checkSleepingWhile H l.length s q none q.head = some (s', q') ∧
      IsList q'.next q'.head q'.tail (q.asleep s l) ∧ q'.pcb = q.pcb ∧ q'.count = q.count ∧
      (s.config.schedulerType ≠ .other → Joined lv s s' (q.woken s l)) := by
  obtain ⟨s', q', hrun, hq', hpcb, hcount, he⟩ := checkSleepingWhile_spec (s := s) hH [] hq
  rw [hq.head_eq]
  refine ⟨s', q', hrun, hq', hpcb, hcount, fun ht => ?_⟩
  have hj := checkSleepingLoop_joined (s := { s with sleepQueue := q.view l }) hH hlv ht []
    (l.map q.pcb)
  have hwoken : (l.map q.pcb).filter (fun p => (State.pcb { s with sleepQueue := q.view l }
      p).deadline ≤ s.systemTicks) = q.woken s l := by
    rw [List.filter_map]
    rfl
  rw [hwoken] at hj
  rw [List.nil_append, List.nil_append, List.map_nil] at he
  rw [← he] at hj
  exact ⟨hj.ready, hj.queues, hj.queue⟩

/-! ## The property -/

/-- No round writes the count. -/
theorem checkSleepingWhile_count {prev node : Option ν}
    (h : checkSleepingWhile H fuel s q prev node = some (s', q')) : q'.count = q.count := by
  induction fuel generalizing s q prev node with
  | zero =>
    cases node with
    | none =>
      cases h
      rfl
    | some n => cases h
  | succ fuel ih =>
    cases node with
    | none =>
      cases h
      rfl
    | some n =>
      unfold checkSleepingWhile at h
      dsimp only at h
      split at h
      · rw [ih h, unlink_count]
      · exact ih h

/-- A walk past sleepers changes nothing. -/
theorem checkSleepingWhile_asleep (kept : List ν)
    (hq : IsList q.next q.head q.tail (kept ++ l))
    (hno : ∀ n ∈ l, ¬ q.Due s n) :
    checkSleepingWhile H l.length s q kept.getLast? l.head? = some (s, q) := by
  induction l generalizing kept with
  | nil => rfl
  | cons n rest ih =>
    have hn : ¬ (s.pcb (q.pcb n)).deadline ≤ s.systemTicks := hno n (by simp)
    have hrest := ih (kept ++ [n]) (by simpa using hq) fun m hm => hno m (by simp [hm])
    simp only [List.length_cons, List.head?_cons]
    unfold checkSleepingWhile
    rw [if_neg hn, hq.next_middle]
    simpa using hrest

theorem joined_nil (lv : UInt8 → Fin MAX_PRIORITY_LEVELS) (s : State) : Joined lv s s [] := by
  refine ⟨?_, ?_, ?_⟩
  · simp
  · simp
  · simp

/-- **The sleep queue is filtered exactly if** nobody in it is due; otherwise the count alone is
wrong, unless the type is none of the three. -/
theorem wakes_sleepers_iff (hH : H.Complete) (hlv : H.Levels lv)
    (hq : IsList q.next q.head q.tail l) (hcount : q.count.toNat = l.length) :
    (WakesSleepers H lv s q l ↔ ∀ n ∈ l, ¬ q.Due s n) ∧
    ∃ s' q', checkSleepingWhile H l.length s q none q.head = some (s', q') ∧
      IsList q'.next q'.head q'.tail (q.asleep s l) ∧ q'.pcb = q.pcb ∧ q'.count = q.count ∧
      (s.config.schedulerType ≠ .other → Joined lv s s' (q.woken s l)) := by
  refine ⟨⟨?_, ?_⟩, checkSleepingWhile_joins hH hlv hq⟩
  · rintro ⟨fuel, s', q', hrun, -, -, hlen, -⟩
    rw [checkSleepingWhile_count hrun, hcount] at hlen
    have hall := List.length_filter_eq_length_iff.mp hlen.symm
    intro n hn
    simpa using hall n hn
  · intro hno
    have hasleep : q.asleep s l = l := List.filter_eq_self.mpr fun n hn => by simpa using hno n hn
    have hwoken : q.woken s l = [] := by
      unfold SleepNodes.woken
      rw [List.map_eq_nil_iff, List.filter_eq_nil_iff]
      intro n hn
      simpa using hno n hn
    have hrun := checkSleepingWhile_asleep (H := H) [] hq hno
    rw [List.getLast?_nil, ← hq.head_eq] at hrun
    refine ⟨l.length, s, q, hrun, ?_, rfl, ?_, ?_⟩
    · rw [hasleep]
      exact hq
    · rw [hasleep]
      exact hcount
    · rw [hwoken]
      exact joined_nil lv s

/-- The sleep queue with three processes. -/
def SleepNodes.three (a b c : Slot) : SleepNodes Slot where
  pcb := id
  next n := if n = a then some b else if n = b then some c else none
  head := some a
  tail := some c
  count := 3

/-- The queue of the processes 1, 2 and 3. -/
theorem isList_three : IsList (SleepNodes.three 1 2 3).next (SleepNodes.three 1 2 3).head
    (SleepNodes.three 1 2 3).tail [1, 2, 3] := by
  refine ⟨by decide, rfl, rfl, ?_⟩
  rintro (_ | ⟨_, _ | ⟨_, _ | ⟨_, a⟩⟩⟩) x b h
  · cases h
    rfl
  · cases h
    rfl
  · cases h
    rfl
  · simp at h

/-- Three processes ask for 1, 5 and 1 ticks: nobody is due yet, and at the next tick the first and
the last are. -/
theorem wakes_sleepers_iff_three : ∃ s t : State,
    (SleepNodes.three 1 2 3).view [1, 2, 3] = s.sleepQueue ∧
    t = { s with systemTicks := s.systemTicks + 1 } ∧
    WakesSleepers listHelpers lastLevel s (SleepNodes.three 1 2 3) [1, 2, 3] ∧
    ¬ WakesSleepers listHelpers lastLevel t (SleepNodes.three 1 2 3) [1, 2, 3] ∧
    ∃ s' q', checkSleepingWhile listHelpers 3 t (SleepNodes.three 1 2 3) none (some 1) =
        some (s', q') ∧
      IsList q'.next q'.head q'.tail [2] ∧ q'.count = 3 ∧ Joined lastLevel t s' [1, 3] := by
  have hx : (exec (step listHelpers) (fun _ _ => true)
      (schedulerInit listHelpers ⟨0, 0, 0, 0⟩ (some ⟨.rr, 10, true, false, 4, 1000, 500⟩))
      [.schedule, .create [] .user 0 0, .create [] .user 0 0, .create [] .user 0 0, .yield,
        .sleep 1, .sleep 5, .sleep 1]).map (fun s => (s.sleepQueue, s.systemTicks,
          s.config.schedulerType, [1, 2, 3].map fun p => (s.pcb p).deadline)) =
        some (⟨[1, 2, 3], some 3, 3⟩, 0, .rr, [1, 5, 1]) := by decide +kernel
  obtain ⟨s, -, hs⟩ := Option.map_eq_some_iff.mp hx
  simp only [Prod.mk.injEq, List.map_cons, List.map_nil, List.cons.injEq, and_true] at hs
  obtain ⟨hq, hticks, htype, h1, h2, h3⟩ := hs
  have hspec (s : State) := wakes_sleepers_iff (s := s) listHelpers_complete listHelpers_levels
    isList_three rfl
  have hnow : ∀ n ∈ [1, 2, 3], ¬ (SleepNodes.three 1 2 3).Due s n := by
    simp [SleepNodes.Due, SleepNodes.three, hticks, h1, h2, h3]
  -- at the next tick
  obtain ⟨t, ht⟩ : ∃ t : State, t = { s with systemTicks := s.systemTicks + 1 } := ⟨_, rfl⟩
  have hdue : ∀ n, (SleepNodes.three 1 2 3).Due t n ↔ (s.pcb n).deadline ≤ 1 := by
    intro n
    rw [ht]
    show (s.pcb n).deadline ≤ s.systemTicks + 1 ↔ _
    rw [hticks]
    rfl
  have hasleep : (SleepNodes.three 1 2 3).asleep t [1, 2, 3] = [2] := by
    simp [SleepNodes.asleep, hdue, h1, h2, h3]
  have hwoken : (SleepNodes.three 1 2 3).woken t [1, 2, 3] = [1, 3] := by
    show ([1, 2, 3].filter fun n => (SleepNodes.three 1 2 3).Due t n).map id = [1, 3]
    simp [hdue, h1, h2, h3]
  obtain ⟨s', q', hrun, hlist, -, hcount, hjoined⟩ := (hspec t).2
  rw [hasleep] at hlist
  rw [hwoken] at hjoined
  refine ⟨s, t, hq.symm, ht, (hspec s).1.mpr hnow, fun h => ?_, s', q', hrun, hlist, hcount,
    hjoined (by simp [ht, htype])⟩
  exact (hspec t).1.mp h 1 (by simp) ((hdue 1).mpr (by simp [h1]))

/-- The sleep queue with one process. -/
def SleepNodes.one (p : Slot) : SleepNodes Slot := ⟨id, fun _ => none, some p, some p, 1⟩

/-- A process asks for one tick; at the next tick the count of the empty queue is 1. -/
theorem count_stays : ¬ ∀ (H : Helpers) (lv : UInt8 → Fin MAX_PRIORITY_LEVELS) (s : State)
    (q : SleepNodes Slot) (l : List Slot), H.Complete → H.Levels lv →
    IsList q.next q.head q.tail l → q.view l = s.sleepQueue → q.count.toNat = l.length →
    WakesSleepers H lv s q l := by
  intro hall
  have hx : (exec (step listHelpers) (fun _ _ => true)
      (schedulerInit listHelpers ⟨0, 0, 0, 0⟩ (some ⟨.rr, 10, true, false, 4, 1000, 500⟩))
      [.schedule, .create [] .user 0 0, .create [] .user 0 0, .yield, .sleep 1]).map
        (fun s => (s.sleepQueue, (s.pcb 1).deadline, s.systemTicks)) =
          some (⟨[1], some 1, 1⟩, 1, 0) := by decide +kernel
  obtain ⟨s, -, hs⟩ := Option.map_eq_some_iff.mp hx
  simp only [Prod.mk.injEq] at hs
  obtain ⟨hq, hd, ht⟩ := hs
  -- the next tick
  obtain ⟨fuel, s', q', hrun, -, -, hlen, -⟩ := hall listHelpers lastLevel
    { s with systemTicks := s.systemTicks + 1 } (SleepNodes.one 1) [1] listHelpers_complete
    listHelpers_levels (isList_singleton rfl) hq.symm rfl
  rw [checkSleepingWhile_count hrun] at hlen
  have hdue : (SleepNodes.one 1).Due { s with systemTicks := s.systemTicks + 1 } 1 := by
    show (s.pcb 1).deadline ≤ s.systemTicks + 1
    rw [hd, ht]
    decide
  have hasleep : (SleepNodes.one 1).asleep { s with systemTicks := s.systemTicks + 1 } [1] = [] :=
    List.filter_cons_of_neg (by simpa using hdue)
  rw [hasleep] at hlen
  exact absurd hlen (by decide)

end OSCompas.Kernel
