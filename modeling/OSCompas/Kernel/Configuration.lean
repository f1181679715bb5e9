import OSCompas.Kernel.Dead
import OSCompas.Kernel.Places

/-!
# Which configurations are safe

`scheduler_init` checks nothing of its configuration.  A timer tick divides by
`load_balance_interval`, a process is queued under the three known scheduler types only, and under
MLFQ it goes to the level that its priority says, which `pcb.h` has for the priorities 0 to 3.

* `State.line` — the processes in the order `get_next_process` takes them;
* `Takes` — some call of `get_next_process`, one after the other, takes the process;
* `SafeToRun` — the property, of the priorities that processes are created with;
* `Config.Divides`, `Config.Queues` — the configurations that divide by 0, and that queue;
* `State.setup` — what no call writes after `scheduler_init`.

Principal results: `getNextProcess_line`, `step_setup` and `safe_to_run_iff`.
-/

set_option autoImplicit false

namespace OSCompas.Kernel

open Function Runs

/-- The processes of all levels, in order. -/
def Mlfq.line (m : Mlfq) : List Slot := (List.finRange MAX_PRIORITY_LEVELS).flatMap m.queues

/-- The processes that wait, in the order they are taken. -/
def State.line (s : State) : List Slot :=
  if s.config.schedulerType = .mlfq then s.mlfq.line else s.readyQueue

/-- One of the next calls of `get_next_process` takes `p`. -/
inductive Takes (H : Helpers) : State → Slot → Prop where
  | now {s : State} {p : Slot} : (getNextProcess H s).2 = some p → Takes H s p
  | later {s : State} {p : Slot} : Takes H (getNextProcess H s).1 p → Takes H s p

/-- Processes are created with the priorities `used`. -/
def CreatesWith (used : UInt8 → Prop) (_ : State) : Op → Prop
  | .create _ _ priority _ => used priority
  | _ => True

/-- Whatever is called, creations with the priorities `used` among it, no tick fails, and every
process that is created can be taken. -/
structure SafeToRun (H : Helpers) (config : Config) (used : UInt8 → Prop) : Prop where
  ticks : ∀ statics s,
    Reaches (Step H) (CreatesWith used) (schedulerInit H statics (some config)) s →
    tickHandler H s ≠ none
  queued : ∀ statics s name type priority flags p, used priority →
    Reaches (Step H) (CreatesWith used) (schedulerInit H statics (some config)) s →
    (createProcess H s name type priority flags).2 = some p →
    Takes H (createProcess H s name type priority flags).1 p

/-- A timer tick divides by 0. -/
def Config.Divides (config : Config) : Prop :=
  config.enableMulticore = true ∧ config.loadBalanceInterval = 0

/-- There is a ready structure for the processes that are created. -/
def Config.Queues (config : Config) (used : UInt8 → Prop) : Prop :=
  ∀ priority, used priority → config.schedulerType ≠ .other

/-- Under MLFQ there is a level for the processes that are created. -/
def Config.HasLevels (config : Config) (used : UInt8 → Prop) : Prop :=
  config.schedulerType = .mlfq → ∀ priority, used priority → priority.toNat < MAX_PRIORITY_LEVELS

variable {H : Helpers} {s s' u : State} {p x i : Slot} {f : Pcb → Pcb} {op : Op} {m : Mlfq}
  {xs : List Slot} {config : Config} {used : UInt8 → Prop}

/-! ## The line -/

theorem Mlfq.line_eq (m : Mlfq) :
    m.line = m.queues 0 ++ (m.queues 1 ++ (m.queues 2 ++ (m.queues 3 ++ []))) := rfl

theorem Mlfq.mem_line {j : Fin MAX_PRIORITY_LEVELS} (h : p ∈ m.queues j) : p ∈ m.line :=
  List.mem_flatMap.mpr ⟨j, List.mem_finRange j, h⟩

/-- The first process of the first level with one is the first of the line. -/
theorem Mlfq.line_pop {j : Fin MAX_PRIORITY_LEVELS} (hj : m.firstLevel = some j)
    (hx : m.queues j = x :: xs) :
    m.line = x :: Mlfq.line { m with queues := update m.queues j xs } := by
  have hbefore : ∀ k, k < j → m.queues k = [] := fun k hk => Mlfq.firstLevel_least hj hk
  rw [Mlfq.line_eq, Mlfq.line_eq]
  match j, hx, hbefore with
  | 0, hx, _ => simp [hx]
  | 1, hx, hb => simp [hx, hb 0 (by decide)]
  | 2, hx, hb => simp [hx, hb 0 (by decide), hb 1 (by decide)]
  | 3, hx, hb => simp [hx, hb 0 (by decide), hb 1 (by decide), hb 2 (by decide)]

/-- Nobody is in the line if no level has a process. -/
theorem Mlfq.line_nil (h : m.firstLevel = none) : m.line = [] := by
  rw [List.eq_nil_iff_forall_not_mem]
  intro p hp
  obtain ⟨j, -, hj⟩ := List.mem_flatMap.mp hp
  exact Mlfq.firstLevel_isSome hj h

/-- **`get_next_process` takes the first of the line.** -/
theorem getNextProcess_line (hH : H.Documented) (s : State) :
    (getNextProcess H s).2 = s.line.head? ∧ (getNextProcess H s).1.line = s.line.tail := by
  have hqueue : s.config.schedulerType ≠ .mlfq →
      (H.readyQueueDequeue s.readyQueue).1 = s.line.head? ∧
      State.line { s with readyQueue := (H.readyQueueDequeue s.readyQueue).2 } = s.line.tail := by
    intro ht
    rw [hH.readyQueueDequeue_pop]
    unfold State.line
    simp only [if_neg ht, and_self]
  unfold getNextProcess
  cases ht : s.config.schedulerType with
  | mlfq =>
    dsimp only
    unfold State.line
    simp only [if_pos ht]
    rcases hH.mlfqDequeue_pop s.mlfq with ⟨hnone, he⟩ | ⟨j, x, xs, hj, hx, he⟩
    · rw [he, Mlfq.line_nil hnone]
      exact ⟨rfl, rfl⟩
    · rw [he, Mlfq.line_pop hj hx]
      exact ⟨rfl, rfl⟩
  | rr => exact hqueue (by simp [ht])
  | fifo => exact hqueue (by simp [ht])
  | other => exact hqueue (by simp [ht])

/-- **Who is in the line is taken**, and nobody else. -/
theorem takes_iff (hH : H.Documented) : Takes H s p ↔ p ∈ s.line := by
  constructor
  · intro h
    induction h with
    | now h =>
      rw [(getNextProcess_line hH _).1] at h
      exact List.mem_of_head? h
    | later _ ih =>
      rw [(getNextProcess_line hH _).2] at ih
      exact List.mem_of_mem_tail ih
  · intro h
    generalize hl : s.line = l at h
    induction l generalizing s with
    | nil => cases h
    | cons x xs ih =>
      obtain ⟨h1, h2⟩ := getNextProcess_line hH s
      rw [hl] at h1 h2
      rcases List.mem_cons.mp h with rfl | h
      · exact .now h1
      · exact .later (ih h2 h)

/-- A ready process that is queued is in the line, unless the type is none of the three or there is
no level for it. -/
theorem add_line (hH : H.Documented) (hr : (s.pcb p).state = .ready)
    (ht : s.config.schedulerType ≠ .other)
    (hl : s.config.schedulerType = .mlfq → (s.pcb p).queueLevel.toNat < MAX_PRIORITY_LEVELS) :
    p ∈ (addToReadyQueueInternal H s p).line := by
  have hqueue : s.config.schedulerType ≠ .mlfq →
      p ∈ State.line { s with readyQueue := H.readyQueueEnqueue s.readyQueue p } := by
    intro hm
    unfold State.line
    rw [if_neg hm, hH.readyQueueEnqueue_append]
    simp
  unfold addToReadyQueueInternal
  rw [if_neg (by rw [hr]; simp)]
  cases hc : s.config.schedulerType with
  | mlfq =>
    show p ∈ State.line { s with mlfq := H.mlfqEnqueue s.mlfq p (s.pcb p).queueLevel }
    unfold State.line
    rw [if_pos hc]
    obtain ⟨i, hi⟩ : ∃ i : Fin MAX_PRIORITY_LEVELS, (s.pcb p).queueLevel = UInt8.ofNat i.val :=
      ⟨⟨_, hl hc⟩, UInt8.ofNat_toNat.symm⟩
    apply Mlfq.mem_line (j := i)
    rw [hi, hH.mlfqEnqueue_append, update_self]
    simp
  | rr => exact hqueue (by simp [hc])
  | fifo => exact hqueue (by simp [hc])
  | other => exact absurd hc ht

/-! ## What no call writes -/

/-- The configuration and the idle process. -/
def State.setup (s : State) : Config × Option Slot := (s.config, s.idle)

@[simp] theorem setup_setPcb : (s.setPcb p f).setup = s.setup := rfl

@[simp] theorem setup_setState {st : ProcessState} : (s.setState H p st).setup = s.setup := rfl

@[simp] theorem setup_add : (addToReadyQueueInternal H s p).setup = s.setup := by
  obtain ⟨m, l, h⟩ := add_eq H s p
  rw [h]
  rfl

@[simp] theorem setup_remove : (removeFromReadyQueueInternal H s p).setup = s.setup := by
  obtain ⟨l, h⟩ := remove_eq (H := H) s p
  rw [h]
  rfl

@[simp] theorem setup_getNextProcess : (getNextProcess H s).1.setup = s.setup := by
  unfold getNextProcess
  split <;> rfl

@[simp] theorem setup_putBack : (putBack H s).setup = s.setup := by
  unfold putBack
  split
  · rfl
  · split
    · rfl
    · split
      · simp
      · rfl

theorem schedule_setup (h : schedule H s = some s') : s'.setup = s.setup := by
  obtain ⟨-, rfl⟩ | ⟨-, rfl⟩ | ⟨x, -, -, rfl⟩ := schedule_cases h
  · rfl
  · exact setup_getNextProcess
  · have hd : ∀ t : State, (dispatch H t x).setup = t.setup := by
      intro t
      unfold dispatch
      exact setup_remove
    rw [hd, setup_putBack]
    exact setup_getNextProcess

theorem updateProcessTimes_setup : (updateProcessTimes H s).setup = s.setup := by
  apply updateProcessTimes_induction (P := fun t => t.setup = s.setup) rfl
  · intro c t f _ _ _ ht
    exact ht
  · intro c t _ _ ht
    exact ht

theorem checkSleepingLoop_setup (kept l : List Slot) :
    (checkSleepingLoop H s kept l).setup = s.setup := by
  induction l generalizing s kept with
  | nil => rfl
  | cons p rest ih =>
    unfold checkSleepingLoop
    split
    · exact (ih _).trans setup_add
    · exact ih _

/-- The configuration and the idle process that a tick finds when it divides. -/
theorem stats_setup (h : updateSchedulerStats (checkSleepingProcesses H
    (updateProcessTimes H { s with systemTicks := s.systemTicks + 1 })) = some u) :
    u.setup = s.setup := by
  obtain ⟨st, sc, rfl⟩ := updateSchedulerStats_eq h
  exact (checkSleepingLoop_setup _ _).trans updateProcessTimes_setup

/-- **No call writes them.** -/
theorem step_setup (h : Step H s op s') : s'.setup = s.setup := by
  cases op with
  | create name type priority flags =>
    cases h
    unfold createProcess
    split
    · rfl
    · exact setup_add
  | terminate pid exitCode =>
    cases h
    unfold terminateProcess
    split
    · rfl
    · split
      · rfl
      · dsimp only
        split <;> exact setup_remove
  | reap pid =>
    cases h
    unfold reapProcess
    split
    · rfl
    · split <;> rfl
  | schedule => exact schedule_setup h
  | tick =>
    obtain ⟨u, hu, h⟩ := tickHandler_cases h
    have hset := stats_setup hu
    rcases h with ⟨-, h⟩ | ⟨-, rfl⟩
    · exact (schedule_setup h).trans hset
    · exact hset
  | yield =>
    obtain ⟨u, hs, hu⟩ := yield_cases h
    rw [schedule_setup hs]
    rcases hu with rfl | rfl | ⟨c, rfl⟩ <;> rfl
  | block =>
    obtain ⟨⟨t, r⟩, hb, rfl⟩ := Option.map_eq_some_iff.mp h
    obtain rfl | ⟨c, -, -, hs⟩ := blockProcess_cases hb
    · rfl
    · have hset := schedule_setup hs
      exact hset
  | wakeup pid =>
    cases h
    unfold wakeupProcess
    split
    · rfl
    · exact setup_add
  | sleep ticks =>
    obtain ⟨⟨t, r⟩, hb, rfl⟩ := Option.map_eq_some_iff.mp h
    obtain ⟨rfl, -⟩ | ⟨c, -, -, hs⟩ := sleepProcess_cases hb
    · rfl
    · have hset := schedule_setup hs
      exact hset
  | setPriority pid priority =>
    cases h
    unfold setPriority
    split
    · rfl
    · dsimp only
      generalize (if 4 ≤ priority then 3 else priority) = level
      split
      · rw [setup_add, setup_remove]
        rfl
      · rfl

theorem schedulerInit_config (H : Helpers) (statics : Statics) (config : Config) :
    (schedulerInit H statics (some config)).config = config := by
  have hcreate : (createProcess H (initialState H statics config) [105, 100, 108, 101] .system 3
      PROCESS_FLAG_CPU_BOUND).1.setup = (initialState H statics config).setup := by
    have hstep : Step H (initialState H statics config)
        (.create [105, 100, 108, 101] .system 3 PROCESS_FLAG_CPU_BOUND) _ := rfl
    exact step_setup hstep
  have hconfig := congrArg (·.1) hcreate
  unfold schedulerInit
  dsimp only
  split <;> exact hconfig

/-! ## Ticks -/

/-- With an idle process there is always somebody to dispatch. -/
theorem schedule_returns (hi : s.idle = some i) : schedule H s ≠ none := by
  unfold schedule
  split
  · simp
  · rw [hi]
    dsimp only
    split
    · simp
    · cases (getNextProcess H s).2 <;> simp

/-- **A tick fails exactly if it divides by 0.** -/
theorem tickHandler_none_iff (hi : s.idle = some i) : tickHandler H s = none ↔
    s.config.Divides := by
  have hset : (checkSleepingProcesses H (updateProcessTimes H
      { s with systemTicks := s.systemTicks + 1 })).setup = s.setup :=
    (checkSleepingLoop_setup _ _).trans updateProcessTimes_setup
  generalize hv : checkSleepingProcesses H (updateProcessTimes H
    { s with systemTicks := s.systemTicks + 1 }) = v at hset
  obtain ⟨u, hu⟩ : ∃ u, updateSchedulerStats v = some u := by
    have hvi : v.idle = some i := (congrArg (·.2) hset).trans hi
    unfold updateSchedulerStats
    rw [hvi]
    exact ⟨_, rfl⟩
  have huset : u.setup = s.setup := stats_setup (by rw [hv]; exact hu)
  have hconfig : u.config = s.config := congrArg (·.1) huset
  have hidle : u.idle = some i := (congrArg (·.2) huset).trans hi
  unfold tickHandler
  dsimp only
  rw [hv, hu]
  show (if _ then _ else _) = none ↔ _
  unfold Config.Divides
  rw [← hconfig]
  by_cases hdiv : u.config.enableMulticore = true ∧ u.config.loadBalanceInterval = 0
  · simp [hdiv]
  · rw [if_neg hdiv]
    refine iff_of_false ?_ hdiv
    split
    · exact schedule_returns (s := { u with needReschedule := true }) hidle
    · simp

/-! ## The property -/

/-- A process that is created can be taken, if there is a ready structure with a level for it. -/
theorem createProcess_takes (hH : H.Complete) (ht : s.config.schedulerType ≠ .other)
    {name : List UInt8} {type : ProcessType} {priority : UInt8} {flags : UInt32}
    (hl : s.config.schedulerType = .mlfq → priority.toNat < MAX_PRIORITY_LEVELS)
    (h : (createProcess H s name type priority flags).2 = some p) :
    Takes H (createProcess H s name type priority flags).1 p := by
  rw [takes_iff hH.toDocumented]
  obtain ⟨q, hfree⟩ : ∃ q, s.table.allocated q = false := by
    unfold createProcess at h
    split at h
    · cases h
    · rename_i q table halloc
      exact ⟨q, (hH.pcbAlloc_free _ _ _ halloc).1⟩
  obtain ⟨x, t, st, he, hconfig, -, -, -, hready, hlevel, -⟩ :=
    createProcess_eq hH hfree name type priority flags
  rw [he] at h ⊢
  obtain rfl : x = p := Option.some.inj h
  apply add_line hH.toDocumented hready
  · rw [hconfig]
    exact ht
  · rw [hconfig]
    intro hm
    rw [hlevel hm]
    exact hl hm

/-- Without a ready structure a process that is created is never taken. -/
theorem create_not_taken (hH : H.Complete) (ht : s.config.schedulerType = .other)
    (hempty : s.readyQueue = []) {q : Slot} (hfree : s.table.allocated q = false)
    (priority : UInt8) : ∃ p, (createProcess H s [] .user priority 0).2 = some p ∧
      ¬ Takes H (createProcess H s [] .user priority 0).1 p := by
  obtain ⟨p, t, st, he, hconfig, hqueue, -⟩ := createProcess_eq hH hfree [] .user priority 0
  rw [he, add_other (by rw [hconfig, ht])]
  refine ⟨p, rfl, ?_⟩
  rw [takes_iff hH.toDocumented]
  unfold State.line
  rw [if_neg (by rw [hconfig, ht]; simp)]
  show p ∉ t.readyQueue
  rw [hqueue, hempty]
  exact List.not_mem_nil

/-- Without a level for it a process may not be queued, and is then never taken. -/
theorem create_dropped (hs : Sound s) (ht : s.config.schedulerType = .mlfq) {q : Slot}
    (hfree : s.table.allocated q = false) {priority : UInt8}
    (hp : ¬ priority.toNat < MAX_PRIORITY_LEVELS) :
    ∃ p, (createProcess strictHelpers s [] .user priority 0).2 = some p ∧
      ¬ Takes strictHelpers (createProcess strictHelpers s [] .user priority 0).1 p := by
  obtain ⟨p, t, st, he, hconfig, -, -, -, hready, hlevel, hmlfq, hpfree⟩ :=
    createProcess_eq strictHelpers_complete hfree [] .user priority 0
  have hadd : addToReadyQueueInternal strictHelpers t p = t := by
    have henqueue : strictHelpers.mlfqEnqueue t.mlfq p priority = t.mlfq := if_neg hp
    unfold addToReadyQueueInternal
    rw [if_neg (by rw [hready]; simp), show t.config.schedulerType = .mlfq by rw [hconfig, ht]]
    dsimp only
    rw [hlevel ht, henqueue]
  rw [he, hadd]
  refine ⟨p, rfl, ?_⟩
  rw [takes_iff strictHelpers_complete.toDocumented]
  unfold State.line
  rw [if_pos (by rw [hconfig]; exact ht)]
  intro hin
  obtain ⟨j, -, hj⟩ := List.mem_flatMap.mp hin
  -- a process that waited before the call would have been allocated
  have hwaits : s.Waits p := by
    unfold State.Waits
    rw [if_pos ht]
    exact ⟨j, hmlfq ▸ hj⟩
  have halive := (hs p (.inl hwaits)).1
  rw [hpfree] at halive
  cases halive

theorem run_setup {statics : Statics}
    (hrun : Reaches (Step H) (CreatesWith used) (schedulerInit H statics (some config)) s) :
    s.setup = (schedulerInit H statics (some config)).setup :=
  hrun.invariant (I := fun u => u.setup = (schedulerInit H statics (some config)).setup) rfl
    fun _ _ _ hi _ h => (step_setup h).trans hi

theorem run_config {statics : Statics}
    (hrun : Reaches (Step H) (CreatesWith used) (schedulerInit H statics (some config)) s) :
    s.config = config :=
  (congrArg (·.1) (run_setup hrun)).trans (schedulerInit_config H statics config)

/-- The condition is enough, whatever the helpers are. -/
theorem SafeToRun.intro (hH : H.Complete) (hd : ¬ config.Divides) (hq : config.Queues used)
    (hl : config.HasLevels used) : SafeToRun H config used := by
  constructor
  · intro statics s hrun hnone
    obtain ⟨i, ⟨hi, -, -⟩, -, -⟩ := schedulerInit_idle hH statics (some config)
    have hidle : s.idle = some i := (congrArg (·.2) (run_setup hrun)).trans hi
    apply hd
    rw [← run_config hrun]
    exact (tickHandler_none_iff hidle).mp hnone
  · intro statics s name type priority flags p hu hrun hp
    have hconfig := run_config hrun
    apply createProcess_takes hH _ _ hp
    · rw [hconfig]
      exact hq priority hu
    · rw [hconfig]
      exact fun hm => hl hm priority hu

theorem SafeToRun.divides_queues (hH : H.Complete) (h : SafeToRun H config used) :
    ¬ config.Divides ∧ config.Queues used := by
  constructor
  · intro hd
    obtain ⟨i, ⟨hi, -, -⟩, -, -⟩ := schedulerInit_idle hH ⟨0, 0, 0, 0⟩ (some config)
    refine h.ticks ⟨0, 0, 0, 0⟩ _ .refl ((tickHandler_none_iff hi).mpr ?_)
    rw [schedulerInit_config]
    exact hd
  · intro priority hu ht
    obtain ⟨q, hfree, hempty, hconfig⟩ :=
      schedulerInit_other hH ⟨0, 0, 0, 0⟩ (some config) ht
    obtain ⟨p, hp, hno⟩ := create_not_taken hH hconfig hempty hfree priority
    exact hno (h.queued _ _ _ _ _ _ p hu .refl hp)

/-- The helpers that queue nothing at a level that does not exist need the levels. -/
theorem SafeToRun.hasLevels (h : SafeToRun strictHelpers config used) :
    config.HasLevels used := by
  intro ht priority hu
  by_contra hp
  obtain ⟨q, hfree⟩ := schedulerInit_free strictHelpers_complete ⟨0, 0, 0, 0⟩ (some config)
  have hsound := schedulerInit_sound strictHelpers_complete.toDocumented ⟨0, 0, 0, 0⟩ (some config)
  have hmlfq : (schedulerInit strictHelpers ⟨0, 0, 0, 0⟩ (some config)).config.schedulerType =
      .mlfq := by
    rw [schedulerInit_config]
    exact ht
  obtain ⟨p, hcreated, hno⟩ := create_dropped hsound hmlfq hfree hp
  exact hno (h.queued _ _ _ _ _ _ p hu .refl hcreated)

/-- **A configuration is safe to run exactly if** no tick divides by 0 and there is a ready
structure, with a level for every process under MLFQ.  Whatever the helpers do with a level that
does not exist, the levels that exist are safe exactly if the first two hold. -/
theorem safe_to_run_iff (config : Config) (used : UInt8 → Prop) :
    ((∀ H : Helpers, H.Complete → SafeToRun H config used) ↔
      ¬ config.Divides ∧ config.Queues used ∧ config.HasLevels used) ∧
    ∀ H : Helpers, H.Complete → config.HasLevels used →
      (SafeToRun H config used ↔ ¬ config.Divides ∧ config.Queues used) := by
  refine ⟨⟨fun h => ?_, fun ⟨hd, hq, hl⟩ H hH => .intro hH hd hq hl⟩, fun H hH hl => ?_⟩
  · obtain ⟨hd, hq⟩ := (h _ strictHelpers_complete).divides_queues strictHelpers_complete
    exact ⟨hd, hq, (h _ strictHelpers_complete).hasLevels⟩
  · exact ⟨fun h => h.divides_queues hH, fun ⟨hd, hq⟩ => .intro hH hd hq hl⟩

/-- The default configuration with the priorities of `pcb.h`. -/
theorem safe_to_run_iff_default :
    SafeToRun listHelpers defaultConfig fun b => b.toNat < MAX_PRIORITY_LEVELS := by
  apply ((safe_to_run_iff defaultConfig _).2 listHelpers listHelpers_complete fun _ _ h => h).mpr
  refine ⟨fun h => ?_, fun _ _ h => ?_⟩
  · cases h.1
  · cases h

/-- The first tick divides by an interval of 0. -/
theorem divides_by_zero : ¬ ∀ (H : Helpers) (config : Config), H.Complete →
    (schedulerInit H ⟨0, 0, 0, 0⟩ (some config)).idle ≠ none →
    SafeToRun H config fun _ => True := by
  intro hall
  have hx : (schedulerInit listHelpers ⟨0, 0, 0, 0⟩
      (some ⟨.mlfq, 10, true, true, 4, 1000, 0⟩)).idle = some 0 ∧
      (tickHandler listHelpers (schedulerInit listHelpers ⟨0, 0, 0, 0⟩
        (some ⟨.mlfq, 10, true, true, 4, 1000, 0⟩))).isNone = true := by decide +kernel
  have hsafe := hall listHelpers ⟨.mlfq, 10, true, true, 4, 1000, 0⟩ listHelpers_complete
    (by rw [hx.1]; simp)
  exact hsafe.ticks ⟨0, 0, 0, 0⟩ _ .refl (Option.isNone_iff_eq_none.mp hx.2)

end OSCompas.Kernel
