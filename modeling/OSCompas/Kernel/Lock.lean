import OSCompas.Lib.Locking
import OSCompas.Kernel.Helpers

/-!
# The scheduler lock (`lab3-2-sparrowos-scheduler/kernel/core/scheduler.c`)

The functions that take `scheduler_lock`, statement by statement: a call of an internal function or
of a helper is one step.  `spinlock_lock` takes the lock if it is free and spins otherwise;
interrupts stay enabled.  The inline assembly of `scheduler_schedule` saves the context of the
current process and loads that of the next one.  A `Call` is what a process calls.

* `createCode`, `terminateCode`, … — the functions; `scheduleCode` is `scheduler_schedule` behind
  its first test, `tickCode` the timer interrupt;
* `kernel` — the system they make up.

Principal results: `eval_data` (run by itself, a function does what `step` says),
`failed_call_unchanged` and `lock_discipline`.
-/

set_option autoImplicit false

namespace OSCompas.Kernel

open Function Runs Locking

/-- What a function returns. -/
inductive Result where
  | void
  | int (n : Int32)
  | ptr (p : Option Slot)
  | stats (st : Stats)

/-- `NULL` or -1. -/
def Result.Failed : Result → Prop
  | .int n => n = -1
  | .ptr p => p = none
  | _ => False

abbrev Procedure := Code State Slot Result

/-- The functions a process calls. -/
inductive Call where
  | create (name : List UInt8) (type : ProcessType) (priority : UInt8) (flags : UInt32)
  | terminate (pid : UInt32) (exitCode : Int32)
  | reap (pid : UInt32)
  | schedule
  | yield
  | block
  | wakeup (pid : UInt32)
  | sleep (ticks : UInt32)
  | setPriority (pid : UInt32) (priority : UInt8)
  | getProcess (pid : UInt32)
  | getStats
  | printStatus
  deriving DecidableEq, Repr

section Code

variable (H : Helpers)

/-- A statement that writes the PCB in the slot `p`. -/
def write (p : Slot) (f : State → Pcb → Pcb) (k : Procedure) : Procedure :=
  .act (fun s => s.setPcb p (f s)) k

/-- `scheduler_create_process`. -/
def createCode (name : List UInt8) (type : ProcessType) (priority : UInt8) (flags : UInt32) :
    Procedure :=
  .lock <|
  .step (fun s => match H.pcbAlloc s.table with
    | none => s
    | some (_, table) => { s with table := table }) fun s =>
  match H.pcbAlloc s.table with
  | none => .unlock <| .ret (.ptr none)
  | some (p, table) =>
    let pid := table.nextPid
    .act (fun s => { s with table := { s.table with nextPid := pid + 1 } }) <|
    write p (fun _ q => H.pcbInit q pid name type priority) <|
    write p (fun _ q => { q with flags := flags }) <|
    write p (fun s q => { q with ppid := match s.current with
      | none => 0
      | some c => if s.idle = some c then 0 else (s.pcb c).pid }) <|
    write p (fun s q => { q with timeCreated := s.systemTicks }) <|
    write p (fun s q => { q with
      timeSlice := H.calculateTimeSlice priority s.config.timeQuantum }) <|
    write p (fun _ q => { q with stackBase := 0x1000000 + pid * STACK_SIZE }) <|
    write p (fun _ q => { q with stackSize := STACK_SIZE }) <|
    write p (fun s q => q.mark s.config.schedulerType priority) <|
    .act (fun s => s.setState H p .ready) <|
    .act (fun s => addToReadyQueueInternal H s p) <|
    .act (fun s => { s with stats := { s.stats with
      processesCreated := s.stats.processesCreated + 1 } }) <|
    .unlock <| .ret (.ptr (some p))

/-- `scheduler_terminate_process`. -/
def terminateCode (pid : UInt32) (exitCode : Int32) : Procedure :=
  .lock <| .test fun s =>
  match H.processTableFind s.table pid with
  | none => .unlock <| .ret (.int (-1))
  | some p => .test fun s =>
    if (s.pcb p).state = .terminated ∨ (s.pcb p).state = .zombie then
      .unlock <| .ret (.int (-1))
    else
      let counted : Procedure :=
        .act (fun s => { s with stats := { s.stats with
          processesTerminated := s.stats.processesTerminated + 1 } }) <|
        .unlock <| .ret (.int 0)
      write p (fun _ q => { q with exitCode := exitCode }) <|
      .act (fun s => removeFromReadyQueueInternal H s p) <|
      write p (fun s q => { q with timeTerminated := s.systemTicks }) <|
      .act (fun s => s.setState H p .zombie) <|
      .test fun s =>
      if s.current = some p then
        .act (fun s => { s with current := none }) <|
        .act (fun s => { s with needReschedule := true }) counted
      else counted

/-- `scheduler_reap_process`. -/
def reapCode (pid : UInt32) : Procedure :=
  .lock <| .test fun s =>
  match H.processTableFind s.table pid with
  | none => .unlock <| .ret (.int (-1))
  | some p => .test fun s =>
    if (s.pcb p).state ≠ .zombie then .unlock <| .ret (.int (-1))
    else .test fun s =>
      let lifetime := (s.pcb p).timeTerminated - (s.pcb p).timeCreated
      .act (fun s => { s with stats := { s.stats with
        processesCompleted := s.stats.processesCompleted + 1 } }) <|
      .act (fun s => { s with stats := { s.stats with
        totalRuntime := s.stats.totalRuntime + (s.pcb p).timeUsed } }) <|
      .act (fun s => { s with stats := { s.stats with
        totalWaitTime := s.stats.totalWaitTime + (lifetime - (s.pcb p).timeUsed) } }) <|
      .act (fun s => { s with stats := { s.stats with
        avgTurnaroundTime := if 0 < s.stats.processesCompleted then
          s.stats.totalRuntime / s.stats.processesCompleted else s.stats.avgTurnaroundTime } }) <|
      .act (fun s => s.setState H p .terminated) <|
      .act (fun s => { s with table := H.pcbFree s.table p }) <|
      .unlock <| .ret (.int 0)

/-- The switch to `next` at the end of `scheduler_schedule`. -/
def dispatchCode (next : Slot) : Procedure :=
  .act (fun s => s.setState H next .running) <|
  write next (fun s q => { q with timeStarted := s.systemTicks }) <|
  write next (fun _ q => { q with timeSliceUsed := 0 }) <|
  .act (fun s => removeFromReadyQueueInternal H s next) <|
  .act (fun s => { s with current := some next }) <|
  .act (fun s => { s with lastScheduleTime := s.systemTicks }) <|
  .act (fun s => { s with needReschedule := false }) <|
  .test fun s => if s.idle = some next then .unlock <| .ret .void else .jump next

/-- The same, where `next` may be `NULL`. -/
def switchCode : Option Slot → Procedure
  | none => .crash
  | some x => dispatchCode H x

/-- The old process in `scheduler_schedule`, whose context is saved. -/
def putBackCode (k : Procedure) : Procedure :=
  .test fun s =>
  match s.current with
  | none => k
  | some c =>
    if s.idle = some c then k
    else
      .save c <| .test fun s =>
      if (s.pcb c).state = .running then
        .act (fun s => s.setState H c .ready) <|
        .act (fun s => addToReadyQueueInternal H s c) k
      else k

/-- `scheduler_schedule`, once `scheduler_running` is found set. -/
def scheduleCode : Procedure :=
  .lock <|
  .step (fun s => (getNextProcess H s).1) fun s =>
  let next := (getNextProcess H s).2
  .test fun s =>
  let next := next.or s.idle
  if s.current = next then .unlock <| .ret .void
  else
    .act (fun s => { s with stats := { s.stats with
      contextSwitches := s.stats.contextSwitches + 1 } }) <|
    putBackCode H <| switchCode H next

/-- A call of `scheduler_schedule`. -/
def scheduleCall (k : Procedure) : Procedure :=
  .test fun s => if s.schedulerRunning = false then k else .call k

/-- `scheduler_tick_handler`. -/
def tickCode : Procedure :=
  .act (fun s => { s with systemTicks := s.systemTicks + 1 }) <|
  .act (updateProcessTimes H) <|
  .act (checkSleepingProcesses H) <|
  .test fun s =>
  match s.idle with
  | none => .crash
  | some i =>
    .act (fun s => updateUtilization s (s.pcb i).timeUsed) <|
    .act updateThroughput <|
    .test fun s =>
    if s.config.enableMulticore ∧ s.config.loadBalanceInterval = 0 then .crash
    else .test fun s =>
      if s.needReschedule ∨ ∃ c ∈ s.current, s.config.enablePreemption ∧
          (s.pcb c).timeSlice ≤ (s.pcb c).timeSliceUsed then
        .act (fun s => { s with needReschedule := true }) <| scheduleCall <| .ret .void
      else .ret .void

/-- `scheduler_yield`. -/
def yieldCode : Procedure :=
  let asked : Procedure :=
    .act (fun s => { s with needReschedule := true }) <| .unlock <| scheduleCall <| .ret .void
  .lock <| .test fun s =>
  match s.current with
  | none => .unlock <| scheduleCall <| .ret .void
  | some c =>
    if s.idle = some c then .unlock <| scheduleCall <| .ret .void
    else .test fun s =>
      if (s.pcb c).flags &&& PROCESS_FLAG_SCHED_MLFQ = 0 then asked
      else write c (fun _ q => { q with timeInQueue := 0 }) asked

/-- `scheduler_block_process`. -/
def blockCode : Procedure :=
  .lock <| .test fun s =>
  match s.current with
  | none => .unlock <| .ret (.int (-1))
  | some c =>
    if s.idle = some c then .unlock <| .ret (.int (-1))
    else
      .act (fun s => s.setState H c .blocked) <|
      .act (fun s => { s with waitQueue := H.waitQueueEnqueue s.waitQueue c }) <|
      .act (fun s => { s with needReschedule := true }) <|
      .unlock <| scheduleCall <| .ret (.int 0)

/-- `scheduler_wakeup_process`. -/
def wakeupCode (pid : UInt32) : Procedure :=
  .lock <| .test fun s =>
  match s.waitQueue.nodes.find? fun p => (s.pcb p).pid = pid with
  | none => .unlock <| .ret (.int (-1))
  | some p =>
    .act (fun s => { s with waitQueue := H.waitQueueRemove s.waitQueue p }) <|
    .act (fun s => s.setState H p .ready) <|
    .act (fun s => addToReadyQueueInternal H s p) <|
    .unlock <| .ret (.int 0)

/-- `scheduler_sleep_process`. -/
def sleepCode (ticks : UInt32) : Procedure :=
  .lock <| .test fun s =>
  match s.current with
  | none => .unlock <| .ret (.int (-1))
  | some c =>
    if s.idle = some c then .unlock <| .ret (.int (-1))
    else
      .act (fun s => s.setState H c .sleeping) <|
      write c (fun s q => { q with deadline := s.systemTicks + ticks }) <|
      .act (fun s => { s with sleepQueue := H.waitQueueEnqueue s.sleepQueue c }) <|
      .act (fun s => { s with needReschedule := true }) <|
      .unlock <| scheduleCall <| .ret (.int 0)

/-- `scheduler_set_priority`. -/
def setPriorityCode (pid : UInt32) (priority : UInt8) : Procedure :=
  .lock <| .test fun s =>
  match H.processTableFind s.table pid with
  | none => .unlock <| .ret (.int (-1))
  | some p =>
    let priority := if 4 ≤ priority then 3 else priority
    write p (fun _ q => H.pcbSetPriority q priority) <|
    write p (fun s q => { q with
      timeSlice := H.calculateTimeSlice priority s.config.timeQuantum }) <|
    .test fun s =>
    if (s.pcb p).state = .ready then
      .act (fun s => removeFromReadyQueueInternal H s p) <|
      .act (fun s => addToReadyQueueInternal H s p) <| .unlock <| .ret (.int 0)
    else .unlock <| .ret (.int 0)

/-- `scheduler_get_process`. -/
def getProcessCode (pid : UInt32) : Procedure :=
  .lock <| .test fun s => .unlock <| .ret (.ptr (H.processTableFind s.table pid))

/-- `scheduler_get_stats`. -/
def getStatsCode : Procedure := .lock <| .test fun s => .unlock <| .ret (.stats s.stats)

/-- `scheduler_print_status`; what it prints is left out. -/
def printStatusCode : Procedure := .lock <| .unlock <| .ret .void

/-- The functions that take the lock, the timer interrupt, and `scheduler_schedule`. -/
def kernel : System State Slot Result Call where
  code
    | .create name type priority flags => createCode H name type priority flags
    | .terminate pid exitCode => terminateCode H pid exitCode
    | .reap pid => reapCode H pid
    | .schedule => scheduleCall (.ret .void)
    | .yield => yieldCode
    | .block => blockCode H
    | .wakeup pid => wakeupCode H pid
    | .sleep ticks => sleepCode H ticks
    | .setPriority pid priority => setPriorityCode H pid priority
    | .getProcess pid => getProcessCode H pid
    | .getStats => getStatsCode
    | .printStatus => printStatusCode
  handler := tickCode H
  shared := scheduleCode H

end Code

variable {H : Helpers} {s s' : State} {held : Bool} {c : Call} {r : Result}

/-! ## Every function locks and unlocks in turn -/

instance : Nonempty State := ⟨initialState listHelpers ⟨0, 0, 0, 0⟩ defaultConfig⟩

@[simp] theorem orderly_write (p : Slot) (f : State → Pcb → Pcb) (k : Procedure) :
    (write p f k).Orderly held ↔ k.Orderly held := Code.orderly_act _

theorem orderly_scheduleCall {k : Procedure} (h : k.Orderly false) :
    (scheduleCall k).Orderly false := by
  intro s
  dsimp only
  split
  · exact h
  · exact ⟨rfl, h⟩

theorem switchCode_orderly (H : Helpers) (next : Option Slot) : (switchCode H next).Orderly true := by
  cases next with
  | none => trivial
  | some x =>
    unfold switchCode dispatchCode
    simp only [Code.orderly_act, orderly_write, Code.orderly_test]
    intro s
    split <;> simp

theorem putBackCode_orderly (H : Helpers) {k : Procedure} (hk : k.Orderly true) :
    (putBackCode H k).Orderly true := by
  unfold putBackCode
  simp only [Code.orderly_test]
  intro s
  split
  · exact hk
  · split
    · exact hk
    · simp only [Code.orderly_save, Code.orderly_test, true_and]
      intro s
      split <;> simp [hk]

theorem scheduleCode_orderly (H : Helpers) : (scheduleCode H).Orderly false := by
  unfold scheduleCode
  simp only [Code.orderly_lock, Code.orderly_step, Code.orderly_test, true_and]
  intro s s'
  split
  · simp
  · simp only [Code.orderly_act]
    exact putBackCode_orderly H (switchCode_orderly H _)

theorem tickCode_lockless (H : Helpers) : (tickCode H).Lockless := by
  unfold tickCode
  simp only [Code.lockless_act, Code.lockless_test]
  intro s
  split
  · trivial
  · simp only [Code.lockless_act, Code.lockless_test]
    intro s
    split
    · trivial
    · simp only [Code.lockless_test]
      intro s
      split
      · unfold scheduleCall
        simp only [Code.lockless_act, Code.lockless_test]
        intro s
        split <;> simp
      · trivial

theorem createCode_orderly (H : Helpers) (name : List UInt8) (type : ProcessType) (priority : UInt8)
    (flags : UInt32) : (createCode H name type priority flags).Orderly false := by
  unfold createCode
  simp only [Code.orderly_lock, Code.orderly_step, true_and]
  intro s
  split <;> simp

theorem terminateCode_orderly (H : Helpers) (pid : UInt32) (exitCode : Int32) :
    (terminateCode H pid exitCode).Orderly false := by
  unfold terminateCode
  simp only [Code.orderly_lock, Code.orderly_test, true_and]
  intro s
  split
  · simp
  · simp only [Code.orderly_test]
    intro s
    split
    · simp
    · simp only [orderly_write, Code.orderly_act, Code.orderly_test]
      intro s
      split <;> simp

theorem reapCode_orderly (H : Helpers) (pid : UInt32) : (reapCode H pid).Orderly false := by
  unfold reapCode
  simp only [Code.orderly_lock, Code.orderly_test, true_and]
  intro s
  split
  · simp
  · simp only [Code.orderly_test]
    intro s
    split <;> simp

theorem yieldCode_orderly : yieldCode.Orderly false := by
  unfold yieldCode
  simp only [Code.orderly_lock, Code.orderly_test, true_and]
  intro s
  split
  · simp [orderly_scheduleCall]
  · split
    · simp [orderly_scheduleCall]
    · simp only [Code.orderly_test]
      intro s
      split <;> simp [orderly_scheduleCall]

theorem blockCode_orderly (H : Helpers) : (blockCode H).Orderly false := by
  unfold blockCode
  simp only [Code.orderly_lock, Code.orderly_test, true_and]
  intro s
  split
  · simp
  · split <;> simp [orderly_scheduleCall]

theorem wakeupCode_orderly (H : Helpers) (pid : UInt32) : (wakeupCode H pid).Orderly false := by
  unfold wakeupCode
  simp only [Code.orderly_lock, Code.orderly_test, true_and]
  intro s
  split <;> simp

theorem sleepCode_orderly (H : Helpers) (ticks : UInt32) : (sleepCode H ticks).Orderly false := by
  unfold sleepCode
  simp only [Code.orderly_lock, Code.orderly_test, true_and]
  intro s
  split
  · simp
  · split <;> simp [orderly_scheduleCall]

theorem setPriorityCode_orderly (H : Helpers) (pid : UInt32) (priority : UInt8) :
    (setPriorityCode H pid priority).Orderly false := by
  unfold setPriorityCode
  simp only [Code.orderly_lock, Code.orderly_test, true_and]
  intro s
  split
  · simp
  · simp only [orderly_write, Code.orderly_test]
    intro s
    split <;> simp

/-- **Every function of the scheduler locks and unlocks in turn.** -/
theorem kernel_orderly (H : Helpers) : (kernel H).Orderly where
  code c := by
    cases c with
    | create name type priority flags => exact createCode_orderly H name type priority flags
    | terminate pid exitCode => exact terminateCode_orderly H pid exitCode
    | reap pid => exact reapCode_orderly H pid
    | schedule => exact orderly_scheduleCall rfl
    | yield => exact yieldCode_orderly
    | block => exact blockCode_orderly H
    | wakeup pid => exact wakeupCode_orderly H pid
    | sleep ticks => exact sleepCode_orderly H ticks
    | setPriority pid priority => exact setPriorityCode_orderly H pid priority
    | getProcess pid => exact ⟨rfl, fun _ => ⟨rfl, rfl⟩⟩
    | getStats => exact ⟨rfl, fun _ => ⟨rfl, rfl⟩⟩
    | printStatus => exact ⟨rfl, rfl, rfl⟩
  handler := tickCode_lockless H
  shared := scheduleCode_orderly H

/-! ## A function run by itself -/

section Eval

variable {shared : State → Bool → Outcome State Slot Result}

@[simp] theorem eval_write (p : Slot) (f : State → Pcb → Pcb) (k : Procedure) :
    (write p f k).eval shared s held = k.eval shared (s.setPcb p (f s)) held := rfl

/-- The function returns `r` with the state `s` and the lock released. -/
def Returns (o : Outcome State Slot Result) (s : State) (r : Result) : Prop :=
  o = .returned s false r

theorem createCode_eval (name : List UInt8) (type : ProcessType) (priority : UInt8)
    (flags : UInt32) : Returns ((createCode H name type priority flags).eval shared s false)
      (createProcess H s name type priority flags).1
      (.ptr (createProcess H s name type priority flags).2) := by
  unfold createCode createProcess
  simp only [Code.eval_lock_free, Code.eval_step]
  cases H.pcbAlloc s.table with
  | none => rfl
  | some r =>
    obtain ⟨p, table⟩ := r
    simp only [Code.eval_act, eval_write, Code.eval_unlock, Code.eval_ret, setPcb_setPcb]
    rfl

theorem terminateCode_eval (pid : UInt32) (exitCode : Int32) :
    Returns ((terminateCode H pid exitCode).eval shared s false)
      (terminateProcess H s pid exitCode).1 (.int (terminateProcess H s pid exitCode).2) := by
  unfold terminateCode terminateProcess
  simp only [Code.eval_lock_free, Code.eval_test]
  cases H.processTableFind s.table pid with
  | none => rfl
  | some p =>
    simp only [Code.eval_test]
    split
    · rfl
    · simp only [Code.eval_act, eval_write, Code.eval_test]
      split <;> rfl

theorem reapCode_eval (pid : UInt32) : Returns ((reapCode H pid).eval shared s false)
    (reapProcess H s pid).1 (.int (reapProcess H s pid).2) := by
  unfold reapCode reapProcess
  simp only [Code.eval_lock_free, Code.eval_test]
  cases H.processTableFind s.table pid with
  | none => rfl
  | some p =>
    simp only [Code.eval_test]
    split <;> rfl

theorem wakeupCode_eval (pid : UInt32) : Returns ((wakeupCode H pid).eval shared s false)
    (wakeupProcess H s pid).1 (.int (wakeupProcess H s pid).2) := by
  unfold wakeupCode wakeupProcess
  simp only [Code.eval_lock_free, Code.eval_test]
  cases s.waitQueue.nodes.find? fun p => (s.pcb p).pid = pid <;> rfl

theorem setPriorityCode_eval (pid : UInt32) (priority : UInt8) :
    Returns ((setPriorityCode H pid priority).eval shared s false)
      (setPriority H s pid priority).1 (.int (setPriority H s pid priority).2) := by
  unfold setPriorityCode setPriority
  simp only [Code.eval_lock_free, Code.eval_test]
  cases H.processTableFind s.table pid with
  | none => rfl
  | some p =>
    -- the last test, in whatever state it is made
    have hlast : ∀ t : State, Returns
        (Code.eval shared (if (t.pcb p).state = .ready then
          .act (fun s => removeFromReadyQueueInternal H s p) <|
          .act (fun s => addToReadyQueueInternal H s p) <| .unlock <| .ret (.int 0)
        else .unlock <| .ret (.int 0)) t true)
        (if (t.pcb p).state = .ready then
          addToReadyQueueInternal H (removeFromReadyQueueInternal H t p) p else t) (.int 0) := by
      intro t
      split <;> rfl
    exact hlast _

theorem switchCode_eval (H : Helpers) (s : State) (next : Option Slot) :
    ((switchCode H next).eval shared s true).data? = next.map (dispatch H s) := by
  cases next with
  | none => rfl
  | some x =>
    unfold switchCode dispatchCode
    simp only [Code.eval_act, eval_write, Code.eval_test, setPcb_setPcb]
    split <;> rfl

theorem putBackCode_eval (H : Helpers) (s : State) (k : Procedure) :
    (putBackCode H k).eval shared s held = k.eval shared (putBack H s) held := by
  unfold putBackCode putBack
  rw [Code.eval_test]
  cases s.current with
  | none => rfl
  | some c =>
    dsimp only
    split
    · rfl
    · rw [Code.eval_save, Code.eval_test]
      split <;> rfl

/-- **`scheduler_schedule`** by itself. -/
theorem scheduleCode_eval (hrun : s.schedulerRunning = true) :
    ((scheduleCode H).eval shared s false).data? = schedule H s := by
  unfold scheduleCode schedule
  obtain ⟨-, hcur, hidle⟩ := getNextProcess_frame (H := H) s
  rw [if_neg (by simp [hrun]), Code.eval_lock_free, Code.eval_step, Code.eval_test]
  dsimp only
  rw [hcur, hidle]
  split
  · rfl
  · rw [Code.eval_act, putBackCode_eval, switchCode_eval]
    simp only [hcur, hidle]
    cases (getNextProcess H s).2.or s.idle <;> rfl

theorem scheduleCall_eval (H : Helpers) (s : State) (r : Result) :
    ((scheduleCall (.ret r)).eval (kernel H).evalShared s false).data? = schedule H s := by
  unfold scheduleCall
  rw [Code.eval_test]
  split
  · rename_i hn
    unfold schedule
    rw [if_pos hn]
    rfl
  · rename_i hn
    have hshared : ((kernel H).evalShared s false).data? = schedule H s :=
      scheduleCode_eval (Bool.eq_true_of_not_eq_false hn)
    rw [← hshared]
    unfold Code.eval
    cases (kernel H).evalShared s false <;> rfl

theorem yieldCode_eval (H : Helpers) (s : State) :
    (yieldCode.eval (kernel H).evalShared s false).data? = yield H s := by
  unfold yieldCode yield
  rw [Code.eval_lock_free, Code.eval_test]
  cases s.current with
  | none => exact scheduleCall_eval H s .void
  | some c =>
    dsimp only
    split
    · exact scheduleCall_eval H s .void
    · rw [Code.eval_test]
      split <;> exact scheduleCall_eval H _ .void

theorem blockCode_eval (H : Helpers) (s : State) :
    ((blockCode H).eval (kernel H).evalShared s false).data? = (blockProcess H s).map (·.1) := by
  unfold blockCode blockProcess
  rw [Code.eval_lock_free, Code.eval_test]
  cases s.current with
  | none => rfl
  | some c =>
    dsimp only
    split
    · rfl
    · rw [Option.map_map]
      exact (scheduleCall_eval H _ (.int 0)).trans (congrFun Option.map_id_fun _).symm

theorem sleepCode_eval (H : Helpers) (s : State) (ticks : UInt32) :
    ((sleepCode H ticks).eval (kernel H).evalShared s false).data? =
      (sleepProcess H s ticks).map (·.1) := by
  unfold sleepCode sleepProcess
  rw [Code.eval_lock_free, Code.eval_test]
  cases s.current with
  | none => rfl
  | some c =>
    dsimp only
    split
    · rfl
    · rw [Option.map_map]
      exact (scheduleCall_eval H _ (.int 0)).trans (congrFun Option.map_id_fun _).symm

/-- The state a call leads to; three of the functions only read. -/
def Call.result (H : Helpers) (s : State) : Call → Option State
  | .create name type priority flags => step H s (.create name type priority flags)
  | .terminate pid exitCode => step H s (.terminate pid exitCode)
  | .reap pid => step H s (.reap pid)
  | .schedule => step H s .schedule
  | .yield => step H s .yield
  | .block => step H s .block
  | .wakeup pid => step H s (.wakeup pid)
  | .sleep ticks => step H s (.sleep ticks)
  | .setPriority pid priority => step H s (.setPriority pid priority)
  | .getProcess _ => some s
  | .getStats => some s
  | .printStatus => some s

/-- **Run by itself, a function does what the model of the scheduler says.** -/
theorem eval_data (H : Helpers) (c : Call) (s : State) :
    ((kernel H).eval c s false).data? = c.result H s := by
  cases c with
  | create name type priority flags => exact congrArg Outcome.data? (createCode_eval ..)
  | terminate pid exitCode => exact congrArg Outcome.data? (terminateCode_eval ..)
  | reap pid => exact congrArg Outcome.data? (reapCode_eval ..)
  | schedule => exact scheduleCall_eval H s .void
  | yield => exact yieldCode_eval H s
  | block => exact blockCode_eval H s
  | wakeup pid => exact congrArg Outcome.data? (wakeupCode_eval ..)
  | sleep ticks => exact sleepCode_eval H s ticks
  | setPriority pid priority => exact congrArg Outcome.data? (setPriorityCode_eval ..)
  | getProcess pid => rfl
  | getStats => rfl
  | printStatus => rfl

/-- A call that returns is a run of the processor on which nothing else happens, and leads where the
model of the scheduler says. -/
theorem call_completes (H : Helpers) {c : Call} {s s' : State} {held : Bool} {r : Result}
    (h : (kernel H).eval c s false = .returned s' held r) :
    Completes (kernel H) ((kernel H).code c) s false s' held r ∧ c.result H s = some s' := by
  refine ⟨System.reaches_of_eval h, ?_⟩
  rw [← eval_data, h]
  rfl

/-- **The timer interrupt** by itself. -/
theorem tickCode_eval (H : Helpers) (s : State) :
    ((tickCode H).eval (kernel H).evalShared s false).data? = tickHandler H s := by
  unfold tickCode tickHandler updateSchedulerStats
  simp only [Code.eval_act, Code.eval_test]
  cases (checkSleepingProcesses H (updateProcessTimes H
      { s with systemTicks := s.systemTicks + 1 })).idle with
  | none => rfl
  | some i =>
    simp only [Code.eval_act, Code.eval_test, Option.bind_eq_bind, Option.bind_some, Option.pure_def]
    split
    · rfl
    · rw [Code.eval_test]
      split
      · exact scheduleCall_eval H _ .void
      · rfl

end Eval

/-! ## Calls that fail -/

theorem ok_ne_error : (0 : Int32) ≠ -1 := by decide

/-- What `scheduler_schedule` returns is not looked at. -/
theorem scheduleCall_returns {shared : State → Bool → Outcome State Slot Result} {r₀ : Result}
    (h : (scheduleCall (.ret r₀)).eval shared s false = .returned s' held r) : r = r₀ := by
  unfold scheduleCall at h
  rw [Code.eval_test] at h
  split at h
  · cases h
    rfl
  · unfold Code.eval at h
    split at h
    · cases h
      rfl
    · rename_i o ho
      exact absurd h (ho s' held r)

theorem createProcess_failed {name : List UInt8} {type : ProcessType} {priority : UInt8}
    {flags : UInt32} (h : (createProcess H s name type priority flags).2 = none) :
    (createProcess H s name type priority flags).1 = s := by
  unfold createProcess at h ⊢
  cases ha : H.pcbAlloc s.table with
  | none => rfl
  | some r =>
    rw [ha] at h
    cases h

theorem terminateProcess_failed {pid : UInt32} {exitCode : Int32}
    (h : (terminateProcess H s pid exitCode).2 = -1) :
    (terminateProcess H s pid exitCode).1 = s := by
  unfold terminateProcess at h ⊢
  cases hf : H.processTableFind s.table pid with
  | none => rfl
  | some p =>
    simp only [hf] at h ⊢
    split
    · rfl
    · rename_i hlive
      rw [if_neg hlive] at h
      exact absurd h ok_ne_error

theorem reapProcess_failed {pid : UInt32} (h : (reapProcess H s pid).2 = -1) :
    (reapProcess H s pid).1 = s := by
  unfold reapProcess at h ⊢
  cases hf : H.processTableFind s.table pid with
  | none => rfl
  | some p =>
    simp only [hf] at h ⊢
    split
    · rfl
    · rename_i hzombie
      rw [if_neg hzombie] at h
      exact absurd h ok_ne_error

theorem wakeupProcess_failed {pid : UInt32} (h : (wakeupProcess H s pid).2 = -1) :
    (wakeupProcess H s pid).1 = s := by
  unfold wakeupProcess at h ⊢
  split
  · rfl
  · rename_i hf
    rw [hf] at h
    exact absurd h ok_ne_error

theorem setPriority_failed {pid : UInt32} {priority : UInt8}
    (h : (setPriority H s pid priority).2 = -1) : (setPriority H s pid priority).1 = s := by
  unfold setPriority at h ⊢
  cases hf : H.processTableFind s.table pid with
  | none => rfl
  | some p =>
    rw [hf] at h
    exact absurd h ok_ne_error

/-- The two calls that give up the processor fail before they write anything. -/
theorem blockCode_failed {shared : State → Bool → Outcome State Slot Result} (hr : r.Failed)
    (h : (blockCode H).eval shared s false = .returned s' held r) : s' = s := by
  unfold blockCode at h
  rw [Code.eval_lock_free, Code.eval_test] at h
  split at h
  · cases h
    rfl
  · split at h
    · cases h
      rfl
    · obtain rfl := scheduleCall_returns h
      exact absurd hr ok_ne_error

theorem sleepCode_failed {shared : State → Bool → Outcome State Slot Result} {ticks : UInt32}
    (hr : r.Failed) (h : (sleepCode H ticks).eval shared s false = .returned s' held r) :
    s' = s := by
  unfold sleepCode at h
  rw [Code.eval_lock_free, Code.eval_test] at h
  split at h
  · cases h
    rfl
  · split at h
    · cases h
      rfl
    · obtain rfl := scheduleCall_returns h
      exact absurd hr ok_ne_error

theorem yieldCode_returns {shared : State → Bool → Outcome State Slot Result}
    (h : yieldCode.eval shared s false = .returned s' held r) : r = .void := by
  unfold yieldCode at h
  rw [Code.eval_lock_free, Code.eval_test] at h
  split at h
  · exact scheduleCall_returns h
  · split at h
    · exact scheduleCall_returns h
    · rw [Code.eval_test] at h
      split at h <;> exact scheduleCall_returns h

/-- **A call that fails leaves the state as it was and the lock released.** -/
theorem failed_call_unchanged (h : (kernel H).eval c s false = .returned s' held r)
    (hr : r.Failed) : s' = s ∧ held = false := by
  refine ⟨?_, (kernel_orderly H).released h⟩
  -- a function that always returns does what the model says, and so does its result
  have hreturns : ∀ {t : State} {q : Result}, Returns ((kernel H).eval c s false) t q →
      t = s' ∧ q = r := fun ht => by
    cases ht.symm.trans h
    exact ⟨rfl, rfl⟩
  cases c with
  | create name type priority flags =>
    obtain ⟨rfl, rfl⟩ := hreturns (createCode_eval ..)
    exact createProcess_failed hr
  | terminate pid exitCode =>
    obtain ⟨rfl, rfl⟩ := hreturns (terminateCode_eval ..)
    exact terminateProcess_failed hr
  | reap pid =>
    obtain ⟨rfl, rfl⟩ := hreturns (reapCode_eval ..)
    exact reapProcess_failed hr
  | schedule =>
    obtain rfl := scheduleCall_returns h
    cases hr
  | yield =>
    obtain rfl := yieldCode_returns h
    cases hr
  | block => exact blockCode_failed hr h
  | wakeup pid =>
    obtain ⟨rfl, rfl⟩ := hreturns (wakeupCode_eval ..)
    exact wakeupProcess_failed hr
  | sleep ticks => exact sleepCode_failed hr h
  | setPriority pid priority =>
    obtain ⟨rfl, rfl⟩ := hreturns (setPriorityCode_eval ..)
    exact setPriority_failed hr
  | getProcess pid =>
    cases h
    rfl
  | getStats =>
    cases h
    cases hr
  | printStatus =>
    cases h
    cases hr

theorem failed_call_unchanged_run : ∃ s', (schedulerInit listHelpers ⟨0, 0, 0, 0⟩ none).current =
    some 0 ∧ ∃ held, (kernel listHelpers).eval (.terminate 7 0)
      (schedulerInit listHelpers ⟨0, 0, 0, 0⟩ none) false = .returned s' held (.int (-1)) ∧
    s' = schedulerInit listHelpers ⟨0, 0, 0, 0⟩ none ∧ held = false := by
  have hc : (schedulerInit listHelpers ⟨0, 0, 0, 0⟩ none).current = some 0 := by decide +kernel
  have hf : (terminateProcess listHelpers (schedulerInit listHelpers ⟨0, 0, 0, 0⟩ none) 7 0).2 =
      -1 := by decide +kernel
  have he : Returns ((kernel listHelpers).eval (.terminate 7 0)
      (schedulerInit listHelpers ⟨0, 0, 0, 0⟩ none) false) _ _ := terminateCode_eval ..
  rw [hf] at he
  exact ⟨_, hc, false, he, failed_call_unchanged he rfl⟩

/-! ## The lock under interrupts -/

/-- The processor when `scheduler_init` is done: no process has been saved yet. -/
def boot (H : Helpers) (statics : Statics) (config : Option Config) : Cpu State Slot Result :=
  ⟨schedulerInit H statics config, false, [], fun _ => none⟩

theorem boot_fits (H : Helpers) (statics : Statics) (config : Option Config) :
    (boot H statics config).Fits := ⟨.nil, nofun⟩

variable {m m' : Cpu State Slot Result} {statics : Statics} {config : Option Config}

/-- **In a disciplined run nobody waits for a lock that is held**, and the first step that breaks
the discipline can be followed by such a wait. -/
theorem lock_discipline
    (hrun : Reaches (kernel H).Step Disciplined (boot H statics config) m) :
    m.spins = false ∧ ∀ e m', (kernel H).Step m e m' → ¬ Disciplined m e →
      ∃ m'', Reaches (kernel H).Step anyAction m' m'' ∧ m''.spins = true := by
  obtain ⟨hfits, hspins⟩ := System.never_spins (kernel_orderly H) (boot_fits H statics config) hrun
  refine ⟨hspins, fun e m' hs hd => ?_⟩
  obtain ⟨s, held, frames, saved⟩ := m
  have hframes := hfits.frames
  cases e with
  | call c => exact absurd trivial hd
  | interrupt => exact absurd trivial hd
  | run =>
    cases hframes with
    | nil => cases hs
    | handler hc hrest =>
      rename_i c rest
      cases c with
      | call k =>
        -- the handler calls `scheduler_schedule`, which starts by taking the lock
        have hheld : held = true := Bool.eq_true_of_not_eq_false hd
        subst hheld
        cases hs
        exact ⟨_, .refl, rfl⟩
      | ret r => exact absurd trivial hd
      | crash => exact absurd trivial hd
      | step f k => exact absurd trivial hd
      | lock k => cases hc
      | unlock k => cases hc
      | save p k => cases hc
      | jump p => cases hc
    | procedure hc hrest =>
      rename_i c rest
      cases c with
      | jump p =>
        -- a new process starts with the lock held, and its first call takes it
        have hheld : held = true := hc
        have hnew : saved p = none := Option.not_isSome_iff_eq_none.mp hd
        subst hheld
        simp only [System.Step, System.step, System.next, hnew, Option.getD_none,
          Option.some.injEq] at hs
        subst hs
        have hcall : (kernel H).Step ⟨s, true, [], saved⟩ (.call .getStats)
            ⟨s, true, [⟨false, getStatsCode⟩], saved⟩ := rfl
        exact ⟨_, .step .refl trivial hcall, rfl⟩
      | call k => exact absurd trivial hd
      | ret r => exact absurd trivial hd
      | crash => exact absurd trivial hd
      | step f k => exact absurd trivial hd
      | lock k => exact absurd trivial hd
      | unlock k => exact absurd trivial hd
      | save p k => exact absurd trivial hd

/-- A timer interrupt finds the lock held by `scheduler_create_process`. -/
theorem lock_discipline_run : ∃ m : Cpu State Slot Result, m.held = true ∧ m.frames.length = 2 ∧
    m.spins = false ∧ ∀ e m', (kernel listHelpers).Step m e m' → ¬ Disciplined m e →
      ∃ m'', Reaches (kernel listHelpers).Step anyAction m' m'' ∧ m''.spins = true := by
  have hx : (exec (kernel listHelpers).step (fun m e => decide (Disciplined m e))
      (boot listHelpers ⟨0, 0, 0, 0⟩ none)
      [.call (.create [] .user 0 0), .run, .run, .interrupt, .run, .run, .run]).map
      (fun m => (m.held, m.frames.length)) = some (true, 2) := by decide +kernel
  obtain ⟨m, hm, hobs⟩ := Option.map_eq_some_iff.mp hx
  simp only [Prod.mk.injEq] at hobs
  obtain ⟨hheld, hlength⟩ := hobs
  have hrun : Reaches (kernel listHelpers).Step Disciplined
      (boot listHelpers ⟨0, 0, 0, 0⟩ none) m :=
    reaches_of_exec (fun _ _ h => of_decide_eq_true h) (fun _ _ _ h => h) hm
  exact ⟨m, hheld, hlength, lock_discipline hrun⟩

/-- The first process that is dispatched asks for the statistics. -/
theorem not_lock_discipline : ¬ ∀ (H : Helpers) statics config (m : Cpu State Slot Result),
    H.Documented → Reaches (kernel H).Step anyAction (boot H statics config) m →
    m.spins = false := by
  intro hall
  have hx : (exec (kernel listHelpers).step (fun _ _ => true) (boot listHelpers ⟨0, 0, 0, 0⟩ none)
      (.call (.create [] .user 0 0) :: List.replicate 16 .run ++
        .call .yield :: List.replicate 19 .run ++ [.call .getStats])).map
      (fun m => m.spins) = some true := by decide +kernel
  obtain ⟨m, hm, hobs⟩ := Option.map_eq_some_iff.mp hx
  have hrun : Reaches (kernel listHelpers).Step anyAction (boot listHelpers ⟨0, 0, 0, 0⟩ none) m :=
    reaches_of_exec (fun _ _ _ => trivial) (fun _ _ _ h => h) hm
  have hspins := hall listHelpers _ _ m listHelpers_documented hrun
  rw [hobs] at hspins
  cases hspins

end OSCompas.Kernel
