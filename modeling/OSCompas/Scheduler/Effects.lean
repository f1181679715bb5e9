import OSCompas.Scheduler.Queues

/-!
# What the calls do to the process table

Which process a call picks, and what it does to `state` and `current_process`, whatever the links
look like.

* `State.pick` — the process at the head of the first queue the policy finds a count in;
  `State.pickWith` and `State.pickWithout` are the picks once a process was added to its queue or
  taken out;
* `SameStates` — no process changes its state, and the current one stays;
* `Switched` — another process runs, and the old one is ready.

Principal results: `schedule_effect` and, from it, `yield_effect`, `terminate_effect` and
`tick_effect`.
-/

set_option autoImplicit false

namespace OSCompas.Scheduler

open Function

variable {s s' s₁ : State} {k : QueueId} {p x c i : Slot} {o : Option Slot}

/-! ## The choice -/

/-- The queues the policy looks at, in this order. -/
def State.scan (s : State) : List QueueId :=
  if s.config.type = .mlfq then (List.finRange MAX_PRIORITY_LEVELS).map .level else [.ready]

/-- The first queue with a positive count. -/
def State.pickQueue (s : State) : Option QueueId :=
  s.scan.find? fun k => (s.links.queue k).count > 0

/-- The process at its head. -/
def State.pick (s : State) : Option Slot := s.pickQueue.bind fun k => (s.links.queue k).head

theorem homeQueue_mem_scan (s : State) (p : Slot) : s.homeQueue p ∈ s.scan := by
  unfold State.homeQueue State.scan
  split
  · exact List.mem_map_of_mem (List.mem_finRange _)
  · exact List.mem_singleton_self _

/-- A queue depends on the policy and on the priority of the process only. -/
theorem homeQueue_congr (hc : s'.config = s.config)
    (hp : (s'.pcb p).priority = (s.pcb p).priority) : s'.homeQueue p = s.homeQueue p := by
  unfold State.homeQueue
  simp only [hc, hp]

theorem unmanaged_congr (hc : s'.config = s.config)
    (hp : (s'.pcb p).priority = (s.pcb p).priority) : s'.unmanaged p ↔ s.unmanaged p := by
  unfold State.unmanaged
  rw [hc, hp]

theorem count_pos_iff (c : UInt32) : c > 0 ↔ c ≠ 0 := by
  rw [gt_iff_lt, UInt32.pos_iff_ne_zero]

theorem pickQueue_mlfq (ht : s.config.type = .mlfq) : s.pickQueue = s.firstLevel.map .level := by
  unfold State.pickQueue State.scan State.firstLevel
  rw [if_pos ht, List.find?_map]
  rfl

theorem pickQueue_single (ht : s.config.type ≠ .mlfq) :
    s.pickQueue = if (s.links.queue .ready).count = 0 then none else some .ready := by
  unfold State.pickQueue State.scan
  rw [if_neg ht]
  by_cases h0 : (s.links.queue .ready).count = 0
  · simp [h0]
  · have hpos : (s.links.queue .ready).count > 0 := (count_pos_iff _).mpr h0
    simp [h0, hpos]

/-! ## The table -/

/-- What no call but `create` and the priority boost changes. -/
structure SameProcs (s s' : State) : Prop where
  config : s'.config = s.config
  nextPid : s'.nextPid = s.nextPid
  systemTicks : s'.systemTicks = s.systemTicks
  boostInterval : s'.boostInterval = s.boostInterval
  lastBoostTime : s'.lastBoostTime = s.lastBoostTime
  pid : ∀ p, (s'.pcb p).pid = (s.pcb p).pid
  priority : ∀ p, (s'.pcb p).priority = (s.pcb p).priority

/-- No process changes its state, and the current one stays. -/
structure SameTable (s s' : State) : Prop extends SameProcs s s' where
  current : s'.current = s.current
  state : ∀ p, (s'.pcb p).state = (s.pcb p).state

/-- What is left of `SameTable` after a priority boost. -/
structure SameStates (s s' : State) : Prop where
  config : s'.config = s.config
  pid : ∀ p, (s'.pcb p).pid = (s.pcb p).pid
  current : s'.current = s.current
  state : ∀ p, (s'.pcb p).state = (s.pcb p).state

/-- `x` runs instead of the current process, which is ready. -/
structure Switched (s s' : State) (x : Slot) : Prop where
  config : s'.config = s.config
  pid : ∀ p, (s'.pcb p).pid = (s.pcb p).pid
  current : s'.current = some x
  state : ∀ p, (s'.pcb p).state =
    if p = x then .running else if s.current = some p then .ready else (s.pcb p).state

theorem SameProcs.refl (s : State) : SameProcs s s :=
  ⟨rfl, rfl, rfl, rfl, rfl, fun _ => rfl, fun _ => rfl⟩

theorem SameProcs.trans {s'' : State} (h : SameProcs s s') (h' : SameProcs s' s'') :
    SameProcs s s'' :=
  ⟨h'.config.trans h.config, h'.nextPid.trans h.nextPid, h'.systemTicks.trans h.systemTicks,
    h'.boostInterval.trans h.boostInterval, h'.lastBoostTime.trans h.lastBoostTime,
    fun p => (h'.pid p).trans (h.pid p), fun p => (h'.priority p).trans (h.priority p)⟩

theorem SameTable.refl (s : State) : SameTable s s := ⟨.refl s, rfl, fun _ => rfl⟩

theorem SameTable.trans {s'' : State} (h : SameTable s s') (h' : SameTable s' s'') :
    SameTable s s'' :=
  ⟨h.toSameProcs.trans h'.toSameProcs, h'.current.trans h.current,
    fun p => (h'.state p).trans (h.state p)⟩

theorem SameTable.toSameStates (h : SameTable s s') : SameStates s s' :=
  ⟨h.config, h.pid, h.current, h.state⟩

theorem SameStates.refl (s : State) : SameStates s s := ⟨rfl, fun _ => rfl, rfl, fun _ => rfl⟩

theorem SameStates.trans {s'' : State} (h : SameStates s s') (h' : SameStates s' s'') :
    SameStates s s'' :=
  ⟨h'.config.trans h.config, fun p => (h'.pid p).trans (h.pid p), h'.current.trans h.current,
    fun p => (h'.state p).trans (h.state p)⟩

/-- Only where a switch starts from and ends in counts. -/
theorem Switched.congr {t t' : State} (h : Switched s s' x) (hs : SameStates t s)
    (hs' : SameStates s' t') : Switched t t' x := by
  refine ⟨hs'.config.trans (h.config.trans hs.config), fun p => ?_, hs'.current.trans h.current,
    fun p => ?_⟩
  · rw [hs'.pid, h.pid, hs.pid]
  · rw [hs'.state, h.state, hs.state, hs.current]

theorem SameTable.links (s : State) (l : Links) : SameTable s { s with links := l } :=
  ⟨⟨rfl, rfl, rfl, rfl, rfl, fun _ => rfl, fun _ => rfl⟩, rfl, fun _ => rfl⟩

/-- A PCB replaced by one that only differs in its counters. -/
theorem SameTable.pcb {q : Pcb} (hpid : q.pid = (s.pcb p).pid) (hstate : q.state = (s.pcb p).state)
    (hprio : q.priority = (s.pcb p).priority) : SameTable s { s with pcb := update s.pcb p q } := by
  have hupd : ∀ {α : Type} (f : Pcb → α), f q = f (s.pcb p) →
      ∀ y, f (update s.pcb p q y) = f (s.pcb y) := fun f hf y => by
    by_cases hy : y = p
    · subst hy
      rw [update_self, hf]
    · rw [update_of_ne hy]
  exact ⟨⟨rfl, rfl, rfl, rfl, rfl, hupd Pcb.pid hpid, hupd Pcb.priority hprio⟩, rfl,
    hupd Pcb.state hstate⟩

/-! ## Queue functions -/

theorem homeQueue_single (ht : s.config.type ≠ .mlfq) (p : Slot) : s.homeQueue p = .ready := by
  unfold State.homeQueue
  rw [if_neg ht]

theorem addToReadyQueue_single {l : Links} (ht : s.config.type ≠ .mlfq)
    (hl : s.links.enqueue .ready p = some l) :
    addToReadyQueue s p = some { s with links := l } := by
  unfold addToReadyQueue
  rw [homeQueue_single ht, hl]
  rfl

theorem fifoSchedule_some {l : Links} (hd : s.links.dequeue .ready = some (l, o))
    (h0 : (s.links.queue .ready).count ≠ 0) : fifoSchedule s = some ({ s with links := l }, o) := by
  unfold fifoSchedule
  rw [if_neg h0, hd]
  rfl

theorem switchTo_single (ht : s.config.type ≠ .mlfq) (x : Slot) :
    (switchTo s x).links = s.links.unlink .ready x := by
  unfold switchTo removeFromReadyQueue
  dsimp only
  rw [if_neg (by exact fun hu => ht hu.1), homeQueue_single (by exact ht)]

theorem addToReadyQueue_effect (h : addToReadyQueue s p = some s') :
    ∃ l, s.links.enqueue (s.homeQueue p) p = some l ∧ s' = { s with links := l } := by
  obtain ⟨l, hl, rfl⟩ := Option.map_eq_some_iff.mp h
  exact ⟨l, hl, rfl⟩

theorem removeFromReadyQueue_effect (s : State) (p : Slot) :
    removeFromReadyQueue s p = { s with links := (removeFromReadyQueue s p).links } := by
  unfold removeFromReadyQueue
  split <;> rfl

theorem setState_state (s : State) (p : Slot) (st : ProcessState) (y : Slot) :
    ((s.setState p st).pcb y).state = if y = p then st else (s.pcb y).state := by
  unfold State.setState
  by_cases hy : y = p
  · subst hy
    simp
  · simp [hy]

theorem setState_procs (s : State) (p : Slot) (st : ProcessState) :
    SameProcs s (s.setState p st) := by
  refine ⟨rfl, rfl, rfl, rfl, rfl, fun y => ?_, fun y => ?_⟩ <;>
  · unfold State.setState
    by_cases hy : y = p
    · subst hy
      simp
    · simp [hy]

/-- The head taken off is the head there was. -/
theorem dequeue_head {l l' : Links} (h : l.dequeue k = some (l', o)) : o = (l.queue k).head := by
  unfold Links.dequeue at h
  simp only at h
  split at h
  · cases h
    rfl
  · split at h
    · cases h
    · rename_i hh
      cases h
      exact hh.symm

/-- `scheduler_fifo_schedule` takes the head off `ready_queue` if its count is positive. -/
theorem fifoSchedule_parts (h : fifoSchedule s = some (s₁, o)) :
    ((s.links.queue .ready).count = 0 ∧ o = none ∧ s₁ = s) ∨
      (s.links.queue .ready).count ≠ 0 ∧
        ∃ l, s.links.dequeue .ready = some (l, o) ∧ s₁ = { s with links := l } := by
  unfold fifoSchedule at h
  split at h
  · rename_i h0
    cases h
    exact .inl ⟨h0, rfl, rfl⟩
  · rename_i h0
    obtain ⟨⟨l, o'⟩, hd, he⟩ := Option.map_eq_some_iff.mp h
    cases he
    exact .inr ⟨h0, l, hd, rfl⟩

/-- `scheduler_rr_schedule` does the same, and adds a current process that is ready. -/
theorem rrSchedule_parts (h : rrSchedule s = some (s₁, o)) :
    ∃ s₂, fifoSchedule s = some (s₂, o) ∧
      ((s₁ = s₂ ∧ ∀ x c, o = some x → s₂.current = some c → (s₂.pcb c).state ≠ .ready) ∨
        ∃ x c, o = some x ∧ s₂.current = some c ∧ (s₂.pcb c).state = .ready ∧
          addToReadyQueue s₂ c = some s₁) := by
  unfold rrSchedule at h
  obtain ⟨⟨s₂, o'⟩, hf, h⟩ := Option.bind_eq_some_iff.mp h
  dsimp only at h
  split at h
  · rename_i x c hc
    split at h
    · rename_i hr
      obtain ⟨s₃, ha, h⟩ := Option.bind_eq_some_iff.mp h
      cases h
      exact ⟨s₂, hf, .inr ⟨x, c, rfl, hc, hr, ha⟩⟩
    · rename_i hr
      cases h
      refine ⟨_, hf, .inl ⟨rfl, fun _ c' _ hc' => ?_⟩⟩
      obtain rfl := Option.some.inj (hc.symm.trans hc')
      exact hr
  · rename_i hno
    cases h
    exact ⟨_, hf, .inl ⟨rfl, fun x c hx hc => absurd hc (hno x c hx)⟩⟩

/-- `scheduler_mlfq_schedule` takes the head off the first level with a count, and gives it the
slice of that level. -/
theorem mlfqSchedule_parts (h : mlfqSchedule s = some (s₁, o)) :
    (s.firstLevel = none ∧ o = none ∧ s₁ = s) ∨
      ∃ i l p, s.firstLevel = some i ∧ s.links.dequeue (.level i) = some (l, o) ∧ o = some p ∧
        s₁ = { s with
          links := l
          pcb := update s.pcb p
            { s.pcb p with timeSlice := s.timeSlices i, timeInQueue := 0 } } := by
  unfold mlfqSchedule at h
  split at h
  · rename_i hf
    cases h
    exact .inl ⟨hf, rfl, rfl⟩
  · rename_i i hf
    obtain ⟨⟨l, o'⟩, hd, h⟩ := Option.bind_eq_some_iff.mp h
    obtain ⟨p, hp, h⟩ := Option.bind_eq_some_iff.mp h
    cases h
    exact .inr ⟨i, l, p, hf, hp ▸ hd, rfl, rfl⟩

theorem fifoSchedule_effect (ht : s.config.type ≠ .mlfq) (h : fifoSchedule s = some (s₁, o)) :
    o = s.pick ∧ SameTable s s₁ := by
  unfold State.pick
  rw [pickQueue_single ht]
  rcases fifoSchedule_parts h with ⟨h0, rfl, rfl⟩ | ⟨h0, l, hd, rfl⟩
  · exact ⟨by simp [h0], .refl s₁⟩
  · refine ⟨?_, .links s l⟩
    rw [if_neg h0, Option.bind_some]
    exact dequeue_head hd

theorem rrSchedule_effect (ht : s.config.type ≠ .mlfq) (h : rrSchedule s = some (s₁, o)) :
    o = s.pick ∧ SameTable s s₁ := by
  obtain ⟨s₂, hf, hs₁⟩ := rrSchedule_parts h
  obtain ⟨ho, hs⟩ := fifoSchedule_effect ht hf
  rcases hs₁ with ⟨rfl, -⟩ | ⟨x, c, -, -, -, ha⟩
  · exact ⟨ho, hs⟩
  · obtain ⟨l, -, rfl⟩ := addToReadyQueue_effect ha
    exact ⟨ho, hs.trans (.links _ _)⟩

theorem mlfqSchedule_effect (ht : s.config.type = .mlfq) (h : mlfqSchedule s = some (s₁, o)) :
    o = s.pick ∧ SameTable s s₁ := by
  unfold State.pick
  rw [pickQueue_mlfq ht]
  rcases mlfqSchedule_parts h with ⟨hf, rfl, rfl⟩ | ⟨i, l, p, hf, hd, rfl, rfl⟩
  · exact ⟨by rw [hf]; rfl, .refl s₁⟩
  · refine ⟨?_, (SameTable.links s l).trans (.pcb rfl rfl rfl)⟩
    rw [hf]
    exact dequeue_head hd

/-- **The policy picks the head of the first queue with a count**, and changes no state. -/
theorem selectNext_effect (h : selectNext s = some (s₁, o)) : o = s.pick ∧ SameTable s s₁ := by
  unfold selectNext at h
  split at h
  · exact fifoSchedule_effect (by simp_all) h
  · exact rrSchedule_effect (by simp_all) h
  · exact mlfqSchedule_effect ‹_› h
  · exact fifoSchedule_effect (by simp_all) h

theorem switchTo_effect (s : State) (x : Slot) : SameProcs s (switchTo s x) ∧
    (switchTo s x).current = some x ∧
    ∀ p, ((switchTo s x).pcb p).state = if p = x then .running else (s.pcb p).state := by
  unfold switchTo
  dsimp only
  rw [removeFromReadyQueue_effect]
  have hupd : ∀ {α : Type} (f : Pcb → α) (q : Pcb), f q = f (s.pcb x) →
      ∀ y, f (update s.pcb x q y) = f (s.pcb y) := fun f q hf y => by
    by_cases hy : y = x
    · subst hy
      rw [update_self, hf]
    · rw [update_of_ne hy]
  refine ⟨⟨rfl, rfl, rfl, rfl, rfl, hupd Pcb.pid _ rfl, hupd Pcb.priority _ rfl⟩, rfl, fun p => ?_⟩
  by_cases hp : p = x
  · subst hp
    simp
  · simp [hp]

/-! ## `scheduler_schedule` -/

/-- **The parts of `scheduler_schedule`**: the pick and, if it is another process, the current one
that is added again and the switch. -/
theorem schedule_parts (h : schedule s = some s') : ∃ s₁, selectNext s = some (s₁, s.pick) ∧
    SameTable s s₁ ∧ ((s.pick = none ∨ s.pick = s.current) ∧ s' = s₁ ∨
      ∃ x, s.pick = some x ∧ s.current ≠ some x ∧
        (s.current = none ∧ s' = switchTo s₁ x ∨
          ∃ c s₂, s.current = some c ∧ addToReadyQueue (s₁.setState c .ready) c = some s₂ ∧
            s' = switchTo s₂ x)) := by
  unfold schedule at h
  obtain ⟨⟨s₁, o⟩, hsel, h⟩ := Option.bind_eq_some_iff.mp h
  obtain ⟨ho, hst⟩ := selectNext_effect hsel
  refine ⟨s₁, ho ▸ hsel, hst, ?_⟩
  rw [← hst.current, ← ho]
  dsimp only at h
  split at h
  · cases h
    exact .inl ⟨.inl rfl, rfl⟩
  · rename_i x
    split at h
    · rename_i hc
      cases h
      exact .inl ⟨.inr hc.symm, rfl⟩
    · rename_i hc
      refine .inr ⟨x, rfl, hc, ?_⟩
      split at h
      · rename_i hnone
        cases h
        exact .inl ⟨hnone, rfl⟩
      · rename_i c hsome
        obtain ⟨s₂, ha, h⟩ := Option.bind_eq_some_iff.mp h
        cases h
        exact .inr ⟨c, s₂, hsome, ha, rfl⟩

/-- **`scheduler_schedule`** leaves the table alone, or switches to the process it picks. -/
theorem schedule_effect (h : schedule s = some s') : SameProcs s s' ∧
    (((s.pick = none ∨ s.pick = s.current) ∧ SameStates s s') ∨
      ∃ x, s.pick = some x ∧ s.current ≠ some x ∧ Switched s s' x) := by
  obtain ⟨s₁, -, hst, ⟨hp, rfl⟩ | ⟨x, hx, hc, hs⟩⟩ := schedule_parts h
  · exact ⟨hst.toSameProcs, .inl ⟨hp, hst.toSameStates⟩⟩
  · rcases hs with ⟨hnone, rfl⟩ | ⟨c, s₂, hsome, ha, rfl⟩
    · obtain ⟨h1, h2, h3⟩ := switchTo_effect s₁ x
      have hp := hst.toSameProcs.trans h1
      refine ⟨hp, .inr ⟨x, hx, hc, hp.config, hp.pid, h2, fun p => ?_⟩⟩
      rw [h3, hst.state, hnone]
      simp
    · obtain ⟨l, -, rfl⟩ := addToReadyQueue_effect ha
      obtain ⟨h1, h2, h3⟩ := switchTo_effect { s₁.setState c .ready with links := l } x
      have hp := (hst.toSameProcs.trans (setState_procs s₁ c .ready)).trans
        ((SameTable.links _ l).toSameProcs.trans h1)
      refine ⟨hp, .inr ⟨x, hx, hc, hp.config, hp.pid, h2, fun p => ?_⟩⟩
      rw [h3, setState_state, hst.state, hsome]
      by_cases hpc : p = c
      · simp [hpc]
      · simp [hpc, Ne.symm hpc]

/-! ## `scheduler_create_process` -/

/-- What `scheduler_create_process` writes into a free slot. -/
structure Filled (s : State) (priority : UInt8) (q : Pcb) : Prop where
  pid : q.pid = s.nextPid
  state : q.state = .ready
  unused : q.timeUsed = 0
  slice : q.timeSlice = TIME_SLICE_BASE * (4 - priority.toUInt32)
  sliceUsed : q.timeSliceUsed = 0
  priority : q.priority = priority

/-- **The parts of a creation**: a free slot is filled in and added to its queue. -/
theorem create_slot {name : List UInt8} {priority : UInt8}
    (h : createProcess s name priority = some (s', o)) :
    (findFreePcb s = none ∧ s' = s) ∨ ∃ p q, findFreePcb s = some p ∧ Filled s priority q ∧
      addToReadyQueue { s with pcb := update s.pcb p q, nextPid := s.nextPid + 1 } p = some s' := by
  unfold createProcess at h
  split at h
  · rename_i hf
    cases h
    exact .inl ⟨hf, rfl⟩
  · rename_i p hf
    obtain ⟨s₁, ha, h⟩ := Option.bind_eq_some_iff.mp h
    cases h
    exact .inr ⟨p, _, hf, ⟨rfl, rfl, rfl, rfl, rfl, rfl⟩, ha⟩

/-- The PCB `p` is filled in; its links are not touched yet. -/
structure Created (s s' : State) (p : Slot) : Prop where
  config : s'.config = s.config
  current : s'.current = s.current
  links : s'.links = s.links
  state : (s'.pcb p).state = .ready
  other : ∀ y, y ≠ p → s'.pcb y = s.pcb y

theorem create_cases {name : List UInt8} {priority : UInt8}
    (h : createProcess s name priority = some (s', o)) :
    (findFreePcb s = none ∧ s' = s) ∨
      ∃ p s₀, findFreePcb s = some p ∧ Created s s₀ p ∧ addToReadyQueue s₀ p = some s' := by
  rcases create_slot h with ⟨hf, rfl⟩ | ⟨p, q, hf, hq, ha⟩
  · exact .inl ⟨hf, rfl⟩
  · refine .inr ⟨p, _, hf, ?_, ha⟩
    refine ⟨rfl, rfl, rfl, ?_, fun y hy => update_of_ne hy _ _⟩
    simp only [update_self]
    exact hq.state

/-! ## `scheduler_yield` -/

/-- The head of the first of the queues `q` with a positive count. -/
def State.pickFrom (s : State) (q : QueueId → ReadyQueue) : Option Slot :=
  (s.scan.find? fun k => (q k).count > 0).bind fun k => (q k).head

/-- The pick once `c` was added to its queue. -/
def State.pickWith (s : State) (c : Slot) : Option Slot :=
  let q := s.links.queue (s.homeQueue c)
  s.pickFrom (update s.links.queue (s.homeQueue c) ⟨q.head.or (some c), some c, q.count + 1⟩)

theorem pickFrom_congr (hc : s'.config = s.config) (q : QueueId → ReadyQueue) :
    s'.pickFrom q = s.pickFrom q := by
  unfold State.pickFrom State.scan
  rw [hc]

theorem pick_eq_pickFrom (s : State) : s.pick = s.pickFrom s.links.queue := rfl

/-- The current process is made ready and added back. -/
theorem readd_effect (h : addToReadyQueue (s.setState c .ready) c = some s₁) :
    SameTable (s.setState c .ready) s₁ ∧ s₁.pick = s.pickWith c := by
  have hp := setState_procs s c .ready
  obtain ⟨l, hl, rfl⟩ := addToReadyQueue_effect h
  refine ⟨.links _ l, ?_⟩
  rw [homeQueue_congr hp.config (hp.priority c)] at hl
  have hq := (enqueue_eq hl).1
  refine (pickFrom_congr (s := s) rfl l.queue).trans ?_
  rw [hq]
  rfl

/-- Without a current process it is a dispatch. -/
theorem yield_none (hc : s.current = none) : yield s = schedule s := by
  unfold yield
  rw [hc]

/-- **`scheduler_yield`** of the current process `c` leaves it ready; another one runs only if the
policy picks another one. -/
theorem yield_effect (hc : s.current = some c) (h : yield s = some s') : SameProcs s s' ∧
    (((s.pickWith c = none ∨ s.pickWith c = some c) ∧ SameStates (s.setState c .ready) s') ∨
      ∃ x, s.pickWith c = some x ∧ x ≠ c ∧ Switched s s' x) := by
  unfold yield at h
  rw [hc] at h
  obtain ⟨s₁, ha, h⟩ := Option.bind_eq_some_iff.mp h
  obtain ⟨hst, hpick⟩ := readd_effect ha
  obtain ⟨hp, he⟩ := schedule_effect h
  have hcur : s₁.current = some c := hst.current.trans hc
  rw [hpick, hcur] at he
  refine ⟨((setState_procs s c .ready).trans hst.toSameProcs).trans hp, ?_⟩
  rcases he with ⟨hnone, hsame⟩ | ⟨x, hx, hne, hsw⟩
  · exact .inl ⟨hnone, hst.toSameStates.trans hsame⟩
  · refine .inr ⟨x, hx, fun he => hne (by rw [he]), ?_⟩
    refine ⟨?_, fun p => ?_, hsw.current, fun p => ?_⟩
    · exact hsw.config.trans hst.config
    · rw [hsw.pid, hst.pid, (setState_procs s c .ready).pid]
    · rw [hsw.state, hcur, hst.state, setState_state, hc]
      by_cases hpc : p = c
      · simp [hpc]
      · simp [hpc, Ne.symm hpc]

theorem yield_procs (h : yield s = some s') : SameProcs s s' := by
  cases hc : s.current with
  | none =>
    rw [yield_none hc] at h
    exact (schedule_effect h).1
  | some c => exact (yield_effect hc h).1

/-! ## `scheduler_terminate_process` -/

/-- The pick once `i` was taken out of its queue. -/
def State.pickWithout (s : State) (i : Slot) : Option Slot :=
  let q := s.links.queue (s.homeQueue i)
  if s.unmanaged i then s.pick else
    s.pickFrom (update s.links.queue (s.homeQueue i)
      ⟨if s.links.prev i = none then s.links.next i else q.head,
        if s.links.next i = none then s.links.prev i else q.tail, unlinkCount q.count⟩)

theorem retire_links (s : State) (i : Slot) :
    (retire s i).links = if s.unmanaged i then s.links else s.links.unlink (s.homeQueue i) i := by
  have hp := setState_procs s i .terminated
  unfold retire removeFromReadyQueue
  simp only [unmanaged_congr hp.config (hp.priority i)]
  split
  · rfl
  · rw [homeQueue_congr hp.config (hp.priority i)]
    rfl

theorem retire_effect (s : State) (i : Slot) :
    SameTable (s.setState i .terminated) (retire s i) ∧
      (retire s i).pick = s.pickWithout i := by
  have hst : SameTable (s.setState i .terminated) (retire s i) := by
    unfold retire
    dsimp only
    rw [removeFromReadyQueue_effect]
    exact ⟨⟨rfl, rfl, rfl, rfl, rfl, fun _ => rfl, fun _ => rfl⟩, rfl, fun _ => rfl⟩
  refine ⟨hst, ?_⟩
  have hc : (retire s i).config = s.config := hst.config.trans (setState_procs s i _).config
  rw [pick_eq_pickFrom, pickFrom_congr hc, retire_links]
  unfold State.pickWithout
  dsimp only
  split
  · rfl
  · rw [unlink_queue]

theorem retire_current (s : State) (i : Slot) : (retire s i).current = s.current :=
  (retire_effect s i).1.current

theorem retire_pid (s : State) (i c : Slot) : ((retire s i).pcb c).pid = (s.pcb c).pid :=
  ((retire_effect s i).1.pid c).trans ((setState_procs s i _).pid c)

/-- **`scheduler_terminate_process`** ends with a dispatch if the current process has the pid. -/
theorem terminate_cases {pid : UInt32} (h : terminateProcess s pid = some s') :
    (findProcess s pid = none ∧ s' = s) ∨ ∃ i, findProcess s pid = some i ∧
      ((∃ c, s.current = some c ∧ (s.pcb c).pid = pid ∧
          schedule { retire s i with current := none } = some s') ∨
        (∀ c, s.current = some c → (s.pcb c).pid ≠ pid) ∧ s' = retire s i) := by
  unfold terminateProcess at h
  split at h
  · rename_i hf
    cases h
    exact .inl ⟨hf, rfl⟩
  · rename_i i hf
    refine .inr ⟨i, hf, ?_⟩
    simp only [retire_current, retire_pid] at h
    split at h
    · rename_i hn
      cases h
      exact .inr ⟨fun c hc => (nomatch hn.symm.trans hc), rfl⟩
    · rename_i c hc
      split at h
      · rename_i hp
        exact .inl ⟨c, hc, hp, h⟩
      · rename_i hp
        cases h
        refine .inr ⟨fun c' hc' => ?_, rfl⟩
        obtain rfl := Option.some.inj (hc.symm.trans hc')
        exact hp

/-- The state the dispatch at the end of `scheduler_terminate_process` starts from. -/
theorem vacated_effect (s : State) (i : Slot) :
    SameProcs s { retire s i with current := none } ∧
      ({ retire s i with current := none } : State).pick = s.pickWithout i ∧
      ∀ p, ((retire s i).pcb p).state = if p = i then .terminated else (s.pcb p).state := by
  obtain ⟨hst, hpick⟩ := retire_effect s i
  have hp := (setState_procs s i .terminated).trans hst.toSameProcs
  refine ⟨⟨hp.config, hp.nextPid, hp.systemTicks, hp.boostInterval, hp.lastBoostTime, hp.pid,
    hp.priority⟩, hpick, fun p => ?_⟩
  rw [hst.state, setState_state]

/-! ## `scheduler_tick` -/

/-- The time slice of `c` ends at the next tick. -/
def State.expires (s : State) (c : Slot) : Prop :=
  s.config.enablePreemption ≠ 0 ∧ (s.pcb c).timeSlice ≤ (s.pcb c).timeSliceUsed + 1

instance (s : State) (c : Slot) : Decidable (s.expires c) := inferInstanceAs (Decidable (_ ∧ _))

/-- A priority boost is due at the next tick. -/
def State.boostDue (s : State) : Prop :=
  s.config.type = .mlfq ∧ s.boostInterval ≤ s.systemTicks + 1 - s.lastBoostTime

instance (s : State) : Decidable s.boostDue := inferInstanceAs (Decidable (_ ∧ _))

/-- The tick is counted and charged to `c`. -/
def State.charged (s : State) (c : Slot) : State :=
  charge { s with systemTicks := s.systemTicks + 1 } c

theorem charged_effect (s : State) (c : Slot) :
    SameTable { s with systemTicks := s.systemTicks + 1 } (s.charged c) :=
  .pcb rfl rfl rfl

theorem charged_pickWith (s : State) (c : Slot) : (s.charged c).pickWith c = s.pickWith c := by
  have hst := charged_effect s c
  have hhome : (s.charged c).homeQueue c = s.homeQueue c :=
    homeQueue_congr hst.config (hst.priority c)
  unfold State.pickWith
  rw [hhome, pickFrom_congr hst.config]
  rfl

/-- A round of the boost moves one process. -/
theorem boostOne_cases {j : Fin MAX_PRIORITY_LEVELS} (h : boostOne s j = some s') :
    ∃ p l l', s.links.dequeue (.level j) = some (l, some p) ∧ l.append (.level 0) p = some l' ∧
      s' = { s with
        links := l'
        pcb := update s.pcb p { s.pcb p with
          priority := 0, timeInQueue := 0, promotions := (s.pcb p).promotions + 1 } } := by
  unfold boostOne at h
  obtain ⟨⟨l, o⟩, hd, h⟩ := Option.bind_eq_some_iff.mp h
  obtain ⟨p, hp, h⟩ := Option.bind_eq_some_iff.mp h
  obtain ⟨l', ha, h⟩ := Option.bind_eq_some_iff.mp h
  cases h
  subst hp
  exact ⟨p, l, l', hd, ha, rfl⟩

/-- **What holds between a state and itself, of two relations in a row, and of every round of the
boost, holds of the whole boost.** -/
theorem boostPriority_rel {R : State → State → Prop} (hrefl : ∀ s, R s s)
    (htrans : ∀ s s' s'', R s s' → R s' s'' → R s s'')
    (hone : ∀ s s' j, boostOne s j = some s' → R s s') (h : boostPriority s = some s') :
    R s s' := by
  have hlevel : ∀ n j s s', boostLevel j n s = some s' → R s s' := by
    intro n j
    induction n with
    | zero =>
      rintro s s' ⟨⟩
      exact hrefl s
    | succ n ih =>
      intro s s' hb
      obtain ⟨s₁, h1, h2⟩ := Option.bind_eq_some_iff.mp hb
      exact htrans _ _ _ (hone _ _ _ h1) (ih _ _ h2)
  unfold boostPriority at h
  obtain ⟨s₁, h1, h⟩ := Option.bind_eq_some_iff.mp h
  obtain ⟨s₂, h2, h3⟩ := Option.bind_eq_some_iff.mp h
  exact htrans _ _ _ (hlevel _ _ _ _ h1) (htrans _ _ _ (hlevel _ _ _ _ h2) (hlevel _ _ _ _ h3))

theorem boostOne_effect {j : Fin MAX_PRIORITY_LEVELS} (h : boostOne s j = some s') :
    SameStates s s' := by
  obtain ⟨p, -, -, -, -, rfl⟩ := boostOne_cases h
  refine ⟨rfl, fun y => ?_, rfl, fun y => ?_⟩ <;>
  · by_cases hy : y = p
    · subst hy
      simp
    · simp [hy]

theorem boostPriority_effect (h : boostPriority s = some s') : SameStates s s' :=
  boostPriority_rel .refl (fun _ _ _ => .trans) (fun _ _ _ => boostOne_effect) h

/-- One more tick in its queue for the process `d`. -/
def State.aged (s : State) (d : Slot) : State :=
  { s with pcb := update s.pcb d { s.pcb d with timeInQueue := (s.pcb d).timeInQueue + 1 } }

/-- **The end of a tick**: under MLFQ the current process ages, and a boost may follow. -/
theorem tickEnd_parts (h : (if s.config.type = .mlfq then tickMlfq s else some s) = some s') :
    (s.config.type ≠ .mlfq ∧ s' = s) ∨ s.config.type = .mlfq ∧ ∃ d,
      (¬ s.boostInterval ≤ s.systemTicks - s.lastBoostTime ∧ s' = s.aged d ∨
        s.boostInterval ≤ s.systemTicks - s.lastBoostTime ∧
          ∃ t, boostPriority (s.aged d) = some t ∧
            s' = { t with lastBoostTime := t.systemTicks }) := by
  split at h
  · rename_i ht
    obtain ⟨d, -, h⟩ := Option.bind_eq_some_iff.mp h
    refine .inr ⟨ht, d, ?_⟩
    dsimp only at h
    split at h
    · rename_i hb
      obtain ⟨t, hbp, h⟩ := Option.bind_eq_some_iff.mp h
      cases h
      exact .inr ⟨hb, t, hbp, rfl⟩
    · rename_i hb
      cases h
      exact .inl ⟨hb, rfl⟩
  · rename_i ht
    cases h
    exact .inl ⟨ht, rfl⟩

/-- The end of a tick: nothing more, or a boost of the queues there are. -/
def Boosting (due : Prop) (s s' : State) : Prop :=
  (¬ due ∧ SameTable s s' ∧ s'.links = s.links) ∨
    due ∧ ∃ s₂ s₃, (SameTable s s₂ ∧ s₂.links = s.links) ∧ boostPriority s₂ = some s₃ ∧
      s' = { s₃ with lastBoostTime := s₃.systemTicks }

/-- Neither the clock of the boost nor the policy changes before the end of the tick. -/
theorem tickMlfq_cases (hp : SameProcs { s with systemTicks := s.systemTicks + 1 } s₁)
    (h : (if s₁.config.type = .mlfq then tickMlfq s₁ else some s₁) = some s') :
    Boosting s.boostDue s₁ s' := by
  have hdue : s.boostDue ↔ s₁.config.type = .mlfq ∧
      s₁.boostInterval ≤ s₁.systemTicks - s₁.lastBoostTime := by
    rw [hp.config, hp.boostInterval, hp.systemTicks, hp.lastBoostTime]
    rfl
  obtain ⟨ht, rfl⟩ | ⟨ht, d, hend⟩ := tickEnd_parts h
  · exact .inl ⟨fun hd => ht (hdue.mp hd).1, .refl _, rfl⟩
  · have hst : SameTable s₁ (s₁.aged d) := .pcb rfl rfl rfl
    rcases hend with ⟨hb, rfl⟩ | ⟨hb, s₃, h1, rfl⟩
    · exact .inl ⟨fun hd => hb (hdue.mp hd).2, hst, rfl⟩
    · exact .inr ⟨hdue.mpr ⟨ht, hb⟩, _, s₃, ⟨hst, rfl⟩, h1, rfl⟩

/-- The test of `scheduler_tick` on its state after the charge. -/
theorem charged_expires (s : State) (c : Slot) : (s.charged c).config.enablePreemption ≠ 0 ∧
    ((s.charged c).pcb c).timeSlice ≤ ((s.charged c).pcb c).timeSliceUsed ↔ s.expires c := by
  unfold State.expires State.charged charge
  simp

/-- The parts of a tick: the charge, the yield if the time slice ends, and what is left under
MLFQ. -/
theorem tick_parts (h : tick s = some s') :
    (s.current = none ∧ s' = { s with systemTicks := s.systemTicks + 1 }) ∨
      ∃ c s₁, s.current = some c ∧
        (s.expires c ∧ yield (s.charged c) = some s₁ ∨ ¬ s.expires c ∧ s₁ = s.charged c) ∧
        (if s₁.config.type = .mlfq then tickMlfq s₁ else some s₁) = some s' := by
  unfold tick at h
  dsimp only at h
  split at h
  · rename_i hc
    cases h
    exact .inl ⟨hc, rfl⟩
  · rename_i c hc
    split at h
    · rename_i he
      obtain ⟨s₁, hy, h⟩ := Option.bind_eq_some_iff.mp h
      exact .inr ⟨c, s₁, hc, .inl ⟨(charged_expires s c).mp he, hy⟩, h⟩
    · rename_i he
      exact .inr ⟨c, _, hc, .inr ⟨fun hs => he ((charged_expires s c).mpr hs), rfl⟩, h⟩

/-- **`scheduler_tick`**: nothing but the count of ticks, or a charge to the current process, a
yield if its time slice ends, and a boost if one is due. -/
theorem tick_cases (h : tick s = some s') :
    (s.current = none ∧ s' = { s with systemTicks := s.systemTicks + 1 }) ∨
      ∃ c s₁, s.current = some c ∧
        (s.expires c ∧ yield (s.charged c) = some s₁ ∨ ¬ s.expires c ∧ s₁ = s.charged c) ∧
        Boosting s.boostDue s₁ s' := by
  rcases tick_parts h with hidle | ⟨c, s₁, hc, hsl, hend⟩
  · exact .inl hidle
  · refine .inr ⟨c, s₁, hc, hsl, tickMlfq_cases ?_ hend⟩
    have hch := (charged_effect s c).toSameProcs
    rcases hsl with ⟨-, hy⟩ | ⟨-, rfl⟩
    · exact hch.trans (yield_procs hy)
    · exact hch

theorem Boosting.effect {due : Prop} (h : Boosting due s s') : SameStates s s' := by
  rcases h with ⟨-, hst, -⟩ | ⟨-, s₂, s₃, ⟨hst, -⟩, hb, rfl⟩
  · exact hst.toSameStates
  · have h3 := hst.toSameStates.trans (boostPriority_effect hb)
    exact ⟨h3.config, h3.pid, h3.current, h3.state⟩

/-- The tick as the table sees it: nothing, or a yield. -/
theorem tick_effect (h : tick s = some s') :
    ((∀ c, s.current = some c → ¬ s.expires c) ∧ SameStates s s') ∨
      ∃ c, s.current = some c ∧ s.expires c ∧
        (((s.pickWith c = none ∨ s.pickWith c = some c) ∧
            SameStates (s.setState c .ready) s') ∨
          ∃ x, s.pickWith c = some x ∧ x ≠ c ∧ Switched s s' x) := by
  rcases tick_cases h with ⟨hc, rfl⟩ | ⟨c, s₁, hc, hsl, hb⟩
  · exact .inl ⟨fun c hc' => (nomatch hc.symm.trans hc'), rfl, fun _ => rfl, rfl, fun _ => rfl⟩
  · have hch : SameStates s (s.charged c) := by
      have hst := (charged_effect s c).toSameStates
      exact ⟨hst.config, hst.pid, hst.current, hst.state⟩
    rcases hsl with ⟨he, hy⟩ | ⟨he, rfl⟩
    · obtain ⟨-, hy⟩ := yield_effect (hch.current.trans hc) hy
      rw [charged_pickWith] at hy
      refine .inr ⟨c, hc, he, ?_⟩
      rcases hy with ⟨hp, hs⟩ | ⟨x, hx, hne, hsw⟩
      · refine .inl ⟨hp, SameStates.trans ?_ (hs.trans hb.effect)⟩
        refine ⟨hch.config, fun p => ?_, hch.current, fun p => ?_⟩
        · rw [(setState_procs _ c _).pid, (setState_procs s c _).pid, hch.pid]
        · rw [setState_state, setState_state, hch.state]
      · exact .inr ⟨x, hx, hne, hsw.congr hch hb.effect⟩
    · refine .inl ⟨fun c' hc' => ?_, hch.trans hb.effect⟩
      obtain rfl := Option.some.inj (hc.symm.trans hc')
      exact he

end OSCompas.Scheduler
