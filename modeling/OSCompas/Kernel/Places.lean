import OSCompas.Kernel.Idle

/-!
# One place for every process

`scheduler_init` creates the idle process like any other, so it waits in a ready queue when it
starts to run; and it stays in state `PROCESS_RUNNING` while other processes run.

* `State.readyCount` — how often a process is in the ready structure;
* `Placed` — every process is in exactly one place.

Principal results: `createProcess_queued`, `never_placed` and `not_placed`.
-/

set_option autoImplicit false

namespace OSCompas.Kernel

open Function Runs

/-- How often the ready structure of the policy holds `p`. -/
def State.readyCount (s : State) (p : Slot) : Nat :=
  if s.config.schedulerType = .mlfq then
    ((List.finRange MAX_PRIORITY_LEVELS).map fun i => (s.mlfq.queues i).count p).sum
  else s.readyQueue.count p

/-- How often `p` is in a queue. -/
def State.copies (s : State) (p : Slot) : Nat :=
  s.readyCount p + s.waitQueue.nodes.count p + s.sleepQueue.nodes.count p

/-- Every live process is in exactly one place. -/
structure Placed (s : State) : Prop where
  running : ∀ p, s.table.allocated p = true → (s.pcb p).state = .running →
    s.current = some p ∧ s.copies p = 0
  ready : ∀ p, s.table.allocated p = true → (s.pcb p).state = .ready →
    s.readyCount p = 1 ∧ s.copies p = 1 ∧ s.current ≠ some p
  blocked : ∀ p, s.table.allocated p = true → (s.pcb p).state = .blocked →
    s.waitQueue.nodes.count p = 1
  sleeping : ∀ p, s.table.allocated p = true → (s.pcb p).state = .sleeping →
    s.sleepQueue.nodes.count p = 1
  once : ∀ p, s.copies p ≤ 1
  idle : ∀ i, s.idle = some i → s.current = some i → s.copies i = 0

variable {H : Helpers} {s t : State} {p : Slot}

theorem readyCount_pos (ht : s.config.schedulerType = .mlfq) {i : Fin MAX_PRIORITY_LEVELS}
    (hp : p ∈ s.mlfq.queues i) : 0 < s.readyCount p := by
  unfold State.readyCount
  rw [if_pos ht]
  apply List.sum_pos_iff_exists_pos_nat.mpr
  refine ⟨_, List.mem_map.mpr ⟨i, List.mem_finRange i, rfl⟩, ?_⟩
  exact List.count_pos_iff.mpr hp

/-- A ready process joins the ready structure, if the scheduler type has one. -/
theorem add_queued (hH : H.Documented) (hr : (s.pcb p).state = .ready)
    (ht : s.config.schedulerType ≠ .other)
    (hl : s.config.schedulerType = .mlfq →
      ∃ i : Fin MAX_PRIORITY_LEVELS, (s.pcb p).queueLevel = UInt8.ofNat i.val) :
    0 < (addToReadyQueueInternal H s p).readyCount p := by
  have hqueue : ∀ s : State, s.config.schedulerType ≠ .mlfq →
      0 < State.readyCount { s with readyQueue := H.readyQueueEnqueue s.readyQueue p } p := by
    intro s hs
    unfold State.readyCount
    rw [if_neg hs]
    apply List.count_pos_iff.mpr
    show p ∈ H.readyQueueEnqueue s.readyQueue p
    rw [hH.readyQueueEnqueue_append]
    simp
  unfold addToReadyQueueInternal
  rw [if_neg (by rw [hr]; simp)]
  cases hc : s.config.schedulerType with
  | mlfq =>
    obtain ⟨i, hi⟩ := hl hc
    show 0 < State.readyCount { s with mlfq := H.mlfqEnqueue s.mlfq p (s.pcb p).queueLevel } p
    refine readyCount_pos (i := i) hc ?_
    show p ∈ (H.mlfqEnqueue s.mlfq p (s.pcb p).queueLevel).queues i
    rw [hi, hH.mlfqEnqueue_append, update_self]
    simp
  | rr => exact hqueue s (by simp [hc])
  | fifo => exact hqueue s (by simp [hc])
  | other => exact absurd hc ht

/-- Without a ready structure nothing is queued. -/
theorem add_other (ht : s.config.schedulerType = .other) :
    addToReadyQueueInternal H s p = s := by
  unfold addToReadyQueueInternal
  split
  · rfl
  · rw [ht]

/-- What `scheduler_create_process` hands to `add_to_ready_queue_internal`. -/
theorem createProcess_eq (hH : H.Complete) {q : Slot} (hfree : s.table.allocated q = false)
    (name : List UInt8) (type : ProcessType) (priority : UInt8) (flags : UInt32) :
    ∃ p t st, createProcess H s name type priority flags =
        ({ addToReadyQueueInternal H t p with stats := st }, some p) ∧
      t.config = s.config ∧ t.readyQueue = s.readyQueue ∧ t.current = s.current ∧
      t.table.allocated = update s.table.allocated p true ∧ (t.pcb p).state = .ready ∧
      (s.config.schedulerType = .mlfq → (t.pcb p).queueLevel = priority) ∧ t.mlfq = s.mlfq ∧
      s.table.allocated p = false := by
  unfold createProcess
  cases halloc : H.pcbAlloc s.table with
  | none => exact absurd halloc (hH.pcbAlloc_some _ q hfree)
  | some a =>
    obtain ⟨p, table⟩ := a
    obtain ⟨hfree, hallocated, -⟩ := hH.pcbAlloc_free _ _ _ halloc
    refine ⟨p, _, _, rfl, rfl, rfl, rfl, hallocated, ?_, ?_, rfl, hfree⟩
    · rw [State.setState, setPcb_self, hH.pcbSetState_state]
    · intro ht
      rw [State.setState, setPcb_self, hH.pcbSetState_eq, setPcb_self]
      show (Pcb.mark _ s.config.schedulerType priority).queueLevel = priority
      rw [ht]
      rfl

/-- A new process is queued, if the scheduler type has a ready structure. -/
theorem createProcess_queued (hH : H.Complete) {q : Slot} (hfree : s.table.allocated q = false)
    (ht : s.config.schedulerType ≠ .other) (name : List UInt8) (type : ProcessType)
    (i : Fin MAX_PRIORITY_LEVELS) (flags : UInt32) :
    ∃ p, (createProcess H s name type (UInt8.ofNat i.val) flags).2 = some p ∧
      0 < (createProcess H s name type (UInt8.ofNat i.val) flags).1.readyCount p := by
  obtain ⟨p, t, st, he, hconfig, -, -, -, hready, hlevel, -⟩ :=
    createProcess_eq hH hfree name type (UInt8.ofNat i.val) flags
  rw [he]
  refine ⟨p, rfl, ?_⟩
  show 0 < (addToReadyQueueInternal H t p).readyCount p
  apply add_queued hH.toDocumented hready
  · rw [hconfig]
    exact ht
  · rw [hconfig]
    intro hm
    exact ⟨i, hlevel hm⟩

/-- `scheduler_init` leaves the idle process running and in the queue it was created in. -/
theorem schedulerInit_not_placed (hH : H.Complete) (statics : Statics) (config : Option Config)
    (ht : (config.getD defaultConfig).schedulerType ≠ .other) :
    ¬ Placed (schedulerInit H statics config) := by
  intro h
  obtain ⟨i, ⟨hi, -, -⟩, -, hc⟩ := schedulerInit_idle hH statics config
  have hzero := h.idle i hi hc
  obtain ⟨p, hp, hpos⟩ : ∃ p,
      (createProcess H (initialState H statics (config.getD defaultConfig)) [105, 100, 108, 101]
        .system 3 PROCESS_FLAG_CPU_BOUND).2 = some p ∧
      0 < (createProcess H (initialState H statics (config.getD defaultConfig))
        [105, 100, 108, 101] .system 3 PROCESS_FLAG_CPU_BOUND).1.readyCount p :=
    createProcess_queued hH (hH.processTableInit_free _ 0) ht _ _ 3 _
  unfold schedulerInit at hi hzero
  simp only [hp] at hi hzero
  obtain rfl := Option.some.inj hi
  have hle := (Nat.le_add_right _ _).trans (Nat.le_of_eq hzero)
  exact absurd (Nat.lt_of_lt_of_le hpos ((Nat.le_add_right _ _).trans hle)) (Nat.lt_irrefl 0)

/-- Without a ready structure a new process waits nowhere. -/
theorem create_not_placed (hH : H.Complete) (ht : s.config.schedulerType = .other) {q : Slot}
    (hfree : s.table.allocated q = false) (hempty : s.readyQueue = []) :
    ¬ Placed (createProcess H s [] .user 0 0).1 := by
  intro h
  obtain ⟨p, t, st, he, hconfig, hqueue, -, hbits, hready, -⟩ :=
    createProcess_eq hH hfree [] .user 0 0
  rw [he, add_other (by rw [hconfig, ht])] at h
  have hone := (h.ready p (by show t.table.allocated p = true; rw [hbits, update_self]) hready).1
  have hzero : State.readyCount { t with stats := st } p = 0 := by
    unfold State.readyCount
    rw [if_neg (by rw [hconfig, ht]; simp)]
    show t.readyQueue.count p = 0
    rw [hqueue, hempty]
    rfl
  exact absurd (hzero.symm.trans hone) (by decide)

/-- `scheduler_init` takes one slot. -/
theorem schedulerInit_free (hH : H.Complete) (statics : Statics) (config : Option Config) :
    ∃ q, (schedulerInit H statics config).table.allocated q = false := by
  set s₀ := initialState H statics (config.getD defaultConfig) with hs₀
  have hfree : ∀ p, s₀.table.allocated p = false := fun p => hH.processTableInit_free _ p
  obtain ⟨p, t, st, he, -, -, -, hbits, -⟩ :=
    createProcess_eq hH (hfree 0) [105, 100, 108, 101] .system 3 PROCESS_FLAG_CPU_BOUND
  obtain ⟨m, l, hadd⟩ := add_eq H t p
  obtain ⟨q, hq⟩ := exists_ne p
  refine ⟨q, ?_⟩
  unfold schedulerInit
  rw [← hs₀, he, hadd]
  show t.table.allocated q = false
  rw [hbits, update_of_ne hq, hfree]

/-- Without a ready structure `scheduler_init` queues nothing. -/
theorem schedulerInit_other (hH : H.Complete) (statics : Statics) (config : Option Config)
    (ht : (config.getD defaultConfig).schedulerType = .other) :
    ∃ q, (schedulerInit H statics config).table.allocated q = false ∧
      (schedulerInit H statics config).readyQueue = [] ∧
      (schedulerInit H statics config).config.schedulerType = .other := by
  set s₀ := initialState H statics (config.getD defaultConfig) with hs₀
  have hfree : ∀ p, s₀.table.allocated p = false := fun p => hH.processTableInit_free _ p
  obtain ⟨p, t, st, he, hconfig, hqueue, -, hbits, hready, -⟩ :=
    createProcess_eq hH (hfree 0) [105, 100, 108, 101] .system 3 PROCESS_FLAG_CPU_BOUND
  unfold schedulerInit
  rw [← hs₀, he, add_other (by rw [hconfig]; exact ht)]
  obtain ⟨q, hq⟩ := exists_ne p
  refine ⟨q, ?_, ?_, ?_⟩
  · show t.table.allocated q = false
    rw [hbits, update_of_ne hq, hfree]
  · show t.readyQueue = []
    rw [hqueue]
    exact hH.readyQueueInit_empty _
  · show t.config.schedulerType = .other
    rw [hconfig]
    exact ht

/-- The idle process is in state `PROCESS_RUNNING` while another one is current. -/
theorem not_placed (hH : H.Complete) {statics : Statics} {config : Option Config}
    (hrun : Reaches (Step H) (IdleGuard H) (schedulerInit H statics config) s)
    (hc : s.current ≠ s.idle) : ¬ Placed s := by
  intro h
  obtain ⟨i, ⟨hi, -, -⟩, ha, hr⟩ := idle_runs hH hrun
  apply hc
  rw [hi]
  exact (h.running i ha hr).1

/-- **Never is every process in exactly one place along a whole run**: for no configuration, and in
no state in which another process than the idle one is current. -/
theorem never_placed (hH : H.Complete) (statics : Statics) (config : Option Config) :
    (¬ ∀ s, Reaches (Step H) anyAction (schedulerInit H statics config) s → Placed s) ∧
      ∀ s, Reaches (Step H) (IdleGuard H) (schedulerInit H statics config) s →
        s.current ≠ s.idle → ¬ Placed s := by
  refine ⟨?_, fun s hrun hc => not_placed hH hrun hc⟩
  intro h
  by_cases ht : (config.getD defaultConfig).schedulerType = .other
  · obtain ⟨q, hfree, hqueue, hconfig⟩ := schedulerInit_other hH statics config ht
    apply create_not_placed hH hconfig hfree hqueue
    apply h
    exact .step .refl trivial (a := .create [] .user 0 0) rfl
  · exact schedulerInit_not_placed hH statics config ht (h _ .refl)

theorem never_placed_run : ∃ s, s.current ≠ s.idle ∧ ¬ Placed s ∧
    Reaches (Step listHelpers) (IdleGuard listHelpers)
      (schedulerInit listHelpers ⟨0, 0, 0, 0⟩ none) s := by
  have hx : (exec (step listHelpers) (fun s op => decide (IdleGuard listHelpers s op))
      (schedulerInit listHelpers ⟨0, 0, 0, 0⟩ none)
      [.create [] .user 0 0, .schedule]).map (fun s => (s.current, s.idle)) =
        some (some 1, some 0) := by
    decide +kernel
  obtain ⟨s, h, hobs⟩ := Option.map_eq_some_iff.mp hx
  simp only [Prod.mk.injEq] at hobs
  have hc : s.current ≠ s.idle := by
    rw [hobs.1, hobs.2]
    decide
  have hrun := run_of_exec h
  exact ⟨s, hc, (never_placed listHelpers_complete _ none).2 s hrun hc, hrun⟩

/-- Right after `scheduler_init` the idle process runs and waits at level 3. -/
theorem idle_queued_while_running : ¬ ∀ (H : Helpers) (statics : Statics)
    (config : Option Config) (s : State), H.Complete →
    Reaches (Step H) anyAction (schedulerInit H statics config) s → Placed s := by
  intro hall
  have h := (hall listHelpers ⟨0, 0, 0, 0⟩ none _ listHelpers_complete .refl).idle 0
    (by decide +kernel) (by decide +kernel)
  exact absurd h (by decide +kernel)

end OSCompas.Kernel
