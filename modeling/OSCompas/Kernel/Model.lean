import OSCompas.Lib.Runs
import Mathlib.Data.Fintype.Card
import Mathlib.Logic.Function.Basic
import Mathlib.Algebra.Ring.Nat

/-!
# The kernel scheduler (`lab3-2-sparrowos-scheduler/kernel/core/scheduler.c`)

The scheduler over the structures of `src/pcb.h`.  The functions that `pcb.h` declares and no file
defines are parameters (`Helpers`); `Helpers.Documented` says what their names promise.

A `pcb_t *` is a slot of `process_table`, or `none` for `NULL`.  A ready queue is the list of the
PCBs of its nodes; a wait queue is the chain of its nodes from `head` on, with `tail` and `count`.
A result `none` is a dereference of `NULL` or a division by zero.  Locks, output, the saved CPU
context, and the family links and statistics inside a PCB are left out.

* `schedulerInit`, `createProcess`, `terminateProcess`, `reapProcess`, `schedule`,
  `tickHandler`, `yield`, `blockProcess`, `wakeupProcess`, `sleepProcess`, `setPriority`;
* `Op`, `step` — the calls the rest of the kernel makes.
-/

set_option autoImplicit false

namespace OSCompas.Kernel

open Function

/-- `process_state_t`. -/
inductive ProcessState where
  | new
  | ready
  | running
  | blocked
  | sleeping
  | zombie
  | terminated
  deriving DecidableEq, Repr

/-- `process_type_t`. -/
inductive ProcessType where
  | system
  | user
  | daemon
  | thread
  deriving DecidableEq, Repr

/-- The values of `scheduler_type`; the three constants have cases of their own in the
`switch` statements. -/
inductive SchedulerType where
  | mlfq
  | rr
  | fifo
  | other
  deriving DecidableEq, Repr

abbrev MAX_PROCESSES : Nat := 64

abbrev MAX_PRIORITY_LEVELS : Nat := 4

def TIME_SLICE_BASE : UInt32 := 10

def STACK_SIZE : UInt32 := 4096

def PROCESS_FLAG_CPU_BOUND : UInt32 := 0x01

def PROCESS_FLAG_SCHED_MLFQ : UInt32 := 0x20

def PROCESS_FLAG_SCHED_RR : UInt32 := 0x40

def PROCESS_FLAG_SCHED_FIFO : UInt32 := 0x80

/-- An entry of `process_table.processes`. -/
abbrev Slot := Fin MAX_PROCESSES

instance lawfulSlot : LawfulBEq Slot := inferInstance

/-- `pcb_t`: the fields the functions below read or write. -/
structure Pcb where
  pid : UInt32
  ppid : UInt32
  state : ProcessState
  flags : UInt32
  priority : UInt8
  exitCode : Int32
  timeCreated : UInt32
  timeStarted : UInt32
  timeTerminated : UInt32
  timeUsed : UInt32
  timeSlice : UInt32
  timeSliceUsed : UInt32
  vruntime : UInt32
  deadline : UInt32
  stackBase : UInt32
  stackSize : UInt32
  timeInQueue : UInt32
  queueLevel : UInt8
  deriving DecidableEq, Repr

/-- A PCB of zero bytes. -/
def Pcb.zero : Pcb := ⟨0, 0, .new, 0, 0, 0, 0, 0, 0, 0, 0, 0, 0, 0, 0, 0, 0, 0⟩

/-- `process_table_t`; `allocated` is its bitmap. -/
structure ProcessTable where
  processes : Slot → Pcb
  allocated : Slot → Bool
  nextPid : UInt32

/-- `mlfq_t`, as far as the scheduler looks at it. -/
structure Mlfq where
  queues : Fin MAX_PRIORITY_LEVELS → List Slot
  demotionThreshold : UInt32

/-- `wait_queue_t`. -/
structure WaitQueue where
  nodes : List Slot
  tail : Option Slot
  count : UInt32
  deriving DecidableEq, Repr

/-- `scheduler_config_t`. -/
structure Config where
  schedulerType : SchedulerType
  timeQuantum : UInt32
  enablePreemption : Bool
  enableMulticore : Bool
  numPriorityLevels : UInt32
  boostInterval : UInt32
  loadBalanceInterval : UInt32
  deriving DecidableEq, Repr

/-- The fields of `scheduler_stats_t` that are written. -/
structure Stats where
  contextSwitches : UInt32
  processesCreated : UInt32
  processesCompleted : UInt32
  processesTerminated : UInt32
  totalRuntime : UInt32
  totalWaitTime : UInt32
  avgTurnaroundTime : UInt32
  throughput : UInt32
  cpuUtilization : UInt32
  deriving DecidableEq, Repr

/-- The static variables of `update_scheduler_stats`. -/
structure Statics where
  lastIdleTime : UInt32
  lastTotalTime : UInt32
  lastCompleted : UInt32
  lastTime : UInt32
  deriving DecidableEq, Repr

/-- `scheduler_state`, and the static variables. -/
structure State where
  config : Config
  table : ProcessTable
  mlfq : Mlfq
  readyQueue : List Slot
  waitQueue : WaitQueue
  sleepQueue : WaitQueue
  current : Option Slot
  idle : Option Slot
  stats : Stats
  systemTicks : UInt32
  lastScheduleTime : UInt32
  schedulerRunning : Bool
  needReschedule : Bool
  statics : Statics

def State.pcb (s : State) (p : Slot) : Pcb := s.table.processes p

/-- Write the PCB in the slot `p`. -/
def State.setPcb (s : State) (p : Slot) (f : Pcb → Pcb) : State :=
  { s with table := { s.table with processes := update s.table.processes p (f (s.pcb p)) } }

@[simp] theorem setPcb_self (s : State) (p : Slot) (f : Pcb → Pcb) :
    (s.setPcb p f).pcb p = f (s.pcb p) := update_self _ _ _

theorem setPcb_of_ne (s : State) (f : Pcb → Pcb) {p q : Slot} (h : q ≠ p) :
    (s.setPcb p f).pcb q = s.pcb q := update_of_ne h _ _

theorem setPcb_setPcb (s : State) (p : Slot) (f g : Pcb → Pcb) :
    (s.setPcb p f).setPcb p g = s.setPcb p fun q => g (f q) := by
  unfold State.setPcb State.pcb
  simp only [update_self, update_idem]

/-! ## Functions without a definition -/

/-- The functions of `pcb.h` that the scheduler calls. -/
structure Helpers where
  calculateTimeSlice : UInt8 → UInt32 → UInt32
  pcbInit : Pcb → UInt32 → List UInt8 → ProcessType → UInt8 → Pcb
  pcbSetState : Pcb → ProcessState → Pcb
  pcbSetPriority : Pcb → UInt8 → Pcb
  pcbAlloc : ProcessTable → Option (Slot × ProcessTable)
  pcbFree : ProcessTable → Slot → ProcessTable
  processTableInit : ProcessTable → ProcessTable
  processTableFind : ProcessTable → UInt32 → Option Slot
  readyQueueInit : UInt32 → List Slot
  readyQueueEnqueue : List Slot → Slot → List Slot
  readyQueueDequeue : List Slot → Option Slot × List Slot
  readyQueueRemove : List Slot → Slot → List Slot
  mlfqInit : UInt32 → UInt32 → Mlfq
  mlfqEnqueue : Mlfq → Slot → UInt8 → Mlfq
  mlfqDequeue : Mlfq → Option Slot × Mlfq
  mlfqAdjustPriority : Mlfq → Slot → Pcb → Bool → Mlfq × Pcb
  waitQueueInit : WaitQueue
  waitQueueEnqueue : WaitQueue → Slot → WaitQueue
  waitQueueRemove : WaitQueue → Slot → WaitQueue

/-- The first level with a process. -/
def Mlfq.firstLevel (m : Mlfq) : Option (Fin MAX_PRIORITY_LEVELS) :=
  (List.finRange MAX_PRIORITY_LEVELS).find? fun i => m.queues i ≠ []

/-- The functions do what their names say.  A level that does not exist is not constrained, but for
other processes; a released PCB is not left ready or running. -/
structure Helpers.Documented (H : Helpers) : Prop where
  pcbSetState_state : ∀ q st, (H.pcbSetState q st).state = st
  pcbSetPriority_state : ∀ q n, (H.pcbSetPriority q n).state = q.state
  pcbAlloc_free : ∀ t p t', H.pcbAlloc t = some (p, t') →
    t.allocated p = false ∧ t'.allocated = update t.allocated p true ∧
      ∀ q, q ≠ p → t'.processes q = t.processes q
  pcbFree_release : ∀ t p, (H.pcbFree t p).allocated = update t.allocated p false ∧
    ((H.pcbFree t p).processes p).state ≠ .ready ∧
    ((H.pcbFree t p).processes p).state ≠ .running ∧
    ∀ q, q ≠ p → (H.pcbFree t p).processes q = t.processes q
  processTableInit_free : ∀ t p, (H.processTableInit t).allocated p = false
  processTableFind_allocated : ∀ t pid p, H.processTableFind t pid = some p →
    t.allocated p = true ∧ (t.processes p).pid = pid
  readyQueueInit_empty : ∀ n, H.readyQueueInit n = []
  readyQueueEnqueue_append : ∀ l p, H.readyQueueEnqueue l p = l ++ [p]
  readyQueueDequeue_pop : ∀ l, H.readyQueueDequeue l = (l.head?, l.tail)
  readyQueueRemove_mem : ∀ l p x, x ∈ H.readyQueueRemove l p ↔ x ∈ l ∧ x ≠ p
  mlfqInit_empty : ∀ n b i, (H.mlfqInit n b).queues i = []
  mlfqEnqueue_append : ∀ m p (i : Fin MAX_PRIORITY_LEVELS),
    (H.mlfqEnqueue m p (UInt8.ofNat i.val)).queues = update m.queues i (m.queues i ++ [p])
  mlfqEnqueue_mem : ∀ m p level i x, x ∈ (H.mlfqEnqueue m p level).queues i →
    x = p ∨ ∃ j, x ∈ m.queues j
  mlfqDequeue_pop : ∀ m, (m.firstLevel = none ∧ H.mlfqDequeue m = (none, m)) ∨
    ∃ i x xs, m.firstLevel = some i ∧ m.queues i = x :: xs ∧
      H.mlfqDequeue m = (some x, { m with queues := update m.queues i xs })
  mlfqAdjustPriority_state : ∀ m p q b, (H.mlfqAdjustPriority m p q b).2.state = q.state
  mlfqAdjustPriority_mem : ∀ m p q b i x, x ∈ (H.mlfqAdjustPriority m p q b).1.queues i →
    x = p ∨ ∃ j, x ∈ m.queues j
  waitQueueInit_empty : H.waitQueueInit.nodes = []
  waitQueueEnqueue_append : ∀ w p, (H.waitQueueEnqueue w p).nodes = w.nodes ++ [p]
  waitQueueRemove_mem : ∀ w p x, x ∈ (H.waitQueueRemove w p).nodes ↔ x ∈ w.nodes ∧ x ≠ p

section Code

variable (H : Helpers)

/-- `pcb_set_state` on a slot. -/
def State.setState (s : State) (p : Slot) (st : ProcessState) : State :=
  s.setPcb p fun q => H.pcbSetState q st

/-! ## Internal functions -/

/-- `get_next_process`. -/
def getNextProcess (s : State) : State × Option Slot :=
  match s.config.schedulerType with
  | .mlfq => ({ s with mlfq := (H.mlfqDequeue s.mlfq).2 }, (H.mlfqDequeue s.mlfq).1)
  | .rr => ({ s with readyQueue := (H.readyQueueDequeue s.readyQueue).2 },
      (H.readyQueueDequeue s.readyQueue).1)
  | .fifo => ({ s with readyQueue := (H.readyQueueDequeue s.readyQueue).2 },
      (H.readyQueueDequeue s.readyQueue).1)
  | .other => ({ s with readyQueue := (H.readyQueueDequeue s.readyQueue).2 },
      (H.readyQueueDequeue s.readyQueue).1)

/-- `add_to_ready_queue_internal`. -/
def addToReadyQueueInternal (s : State) (p : Slot) : State :=
  if (s.pcb p).state ≠ .ready then s else
    match s.config.schedulerType with
    | .mlfq => { s with mlfq := H.mlfqEnqueue s.mlfq p (s.pcb p).queueLevel }
    | .rr => { s with readyQueue := H.readyQueueEnqueue s.readyQueue p }
    | .fifo => { s with readyQueue := H.readyQueueEnqueue s.readyQueue p }
    | .other => s

/-- `remove_from_ready_queue_internal`: nothing is removed under MLFQ. -/
def removeFromReadyQueueInternal (s : State) (p : Slot) : State :=
  match s.config.schedulerType with
  | .mlfq => s
  | .rr => { s with readyQueue := H.readyQueueRemove s.readyQueue p }
  | .fifo => { s with readyQueue := H.readyQueueRemove s.readyQueue p }
  | .other => s

/-- `update_process_times`. -/
def updateProcessTimes (s : State) : State :=
  match s.current with
  | none => s
  | some c =>
    if s.idle = some c then s else
      let s := s.setPcb c fun q => { q with
        timeUsed := q.timeUsed + 1
        timeSliceUsed := q.timeSliceUsed + 1
        vruntime := q.vruntime + 1 }
      if (s.pcb c).flags &&& PROCESS_FLAG_SCHED_MLFQ = 0 then s else
        let s := s.setPcb c fun q => { q with timeInQueue := q.timeInQueue + 1 }
        if (s.pcb c).timeInQueue < s.mlfq.demotionThreshold then s else
          let r := H.mlfqAdjustPriority s.mlfq c (s.pcb c) true
          State.setPcb { s with mlfq := r.1 } c fun _ => r.2

/-- The loop of `check_sleeping_processes`; `kept` are the nodes before the current one, of which
`prev` is the last. -/
def checkSleepingLoop (s : State) (kept : List Slot) : List Slot → State
  | [] => s
  | p :: rest =>
    if (s.pcb p).deadline ≤ s.systemTicks then
      let s := { s with sleepQueue := { s.sleepQueue with
        nodes := kept ++ rest
        tail := if rest = [] then kept.getLast? else s.sleepQueue.tail } }
      checkSleepingLoop (addToReadyQueueInternal H (s.setState H p .ready) p) kept rest
    else checkSleepingLoop s (kept ++ [p]) rest

/-- `check_sleeping_processes`. -/
def checkSleepingProcesses (s : State) : State := checkSleepingLoop H s [] s.sleepQueue.nodes

/-- The CPU utilisation in `update_scheduler_stats`. -/
def updateUtilization (s : State) (idleTime : UInt32) : State :=
  if s.statics.lastTotalTime < s.systemTicks then
    let idleDelta := idleTime - s.statics.lastIdleTime
    let totalDelta := s.systemTicks - s.statics.lastTotalTime
    { s with
      stats := { s.stats with
        cpuUtilization := if 0 < totalDelta then 100 - idleDelta * 100 / totalDelta
          else s.stats.cpuUtilization }
      statics := { s.statics with lastIdleTime := idleTime, lastTotalTime := s.systemTicks } }
  else s

/-- The throughput in `update_scheduler_stats`. -/
def updateThroughput (s : State) : State :=
  let timeDelta := s.systemTicks - s.statics.lastTime
  if 1000 ≤ timeDelta then
    let completedDelta := s.stats.processesCompleted - s.statics.lastCompleted
    { s with
      stats := { s.stats with
        throughput := if 0 < timeDelta then completedDelta * 1000 / timeDelta
          else s.stats.throughput }
      statics := { s.statics with
        lastCompleted := s.stats.processesCompleted, lastTime := s.systemTicks } }
  else s

/-- `update_scheduler_stats`. -/
def updateSchedulerStats (s : State) : Option State := do
  let i ← s.idle
  return updateThroughput (updateUtilization s (s.pcb i).timeUsed)

/-! ## Calls -/

/-- The fields that `scheduler_create_process` sets according to the scheduler type. -/
def Pcb.mark (q : Pcb) (type : SchedulerType) (priority : UInt8) : Pcb :=
  match type with
  | .mlfq => { q with flags := q.flags ||| PROCESS_FLAG_SCHED_MLFQ, queueLevel := priority }
  | .rr => { q with flags := q.flags ||| PROCESS_FLAG_SCHED_RR }
  | .fifo => { q with flags := q.flags ||| PROCESS_FLAG_SCHED_FIFO }
  | .other => q

/-- `scheduler_create_process`. -/
def createProcess (s : State) (name : List UInt8) (type : ProcessType) (priority : UInt8)
    (flags : UInt32) : State × Option Slot :=
  match H.pcbAlloc s.table with
  | none => (s, none)
  | some (p, table) =>
    let pid := table.nextPid
    let s := { s with table := { table with nextPid := pid + 1 } }
    let s := s.setPcb p fun q => { H.pcbInit q pid name type priority with flags := flags }
    let ppid := match s.current with
      | none => 0
      | some c => if s.idle = some c then 0 else (s.pcb c).pid
    let s := s.setPcb p fun q => { q with
      ppid := ppid
      timeCreated := s.systemTicks
      timeSlice := H.calculateTimeSlice priority s.config.timeQuantum
      stackBase := 0x1000000 + pid * STACK_SIZE
      stackSize := STACK_SIZE }
    let s := s.setPcb p fun q => q.mark s.config.schedulerType priority
    let s := addToReadyQueueInternal H (s.setState H p .ready) p
    ({ s with stats := { s.stats with processesCreated := s.stats.processesCreated + 1 } }, some p)

/-- `scheduler_terminate_process`. -/
def terminateProcess (s : State) (pid : UInt32) (exitCode : Int32) : State × Int32 :=
  match H.processTableFind s.table pid with
  | none => (s, -1)
  | some p =>
    if (s.pcb p).state = .terminated ∨ (s.pcb p).state = .zombie then (s, -1) else
      let s := s.setPcb p fun q => { q with exitCode := exitCode }
      let s := removeFromReadyQueueInternal H s p
      let s := s.setPcb p fun q => { q with timeTerminated := s.systemTicks }
      let s := s.setState H p .zombie
      let s := if s.current = some p then { s with current := none, needReschedule := true } else s
      ({ s with stats := { s.stats with
          processesTerminated := s.stats.processesTerminated + 1 } }, 0)

/-- `scheduler_reap_process`. -/
def reapProcess (s : State) (pid : UInt32) : State × Int32 :=
  match H.processTableFind s.table pid with
  | none => (s, -1)
  | some p =>
    if (s.pcb p).state ≠ .zombie then (s, -1) else
      let lifetime := (s.pcb p).timeTerminated - (s.pcb p).timeCreated
      let completed := s.stats.processesCompleted + 1
      let runtime := s.stats.totalRuntime + (s.pcb p).timeUsed
      let s := { s with stats := { s.stats with
        processesCompleted := completed
        totalRuntime := runtime
        totalWaitTime := s.stats.totalWaitTime + (lifetime - (s.pcb p).timeUsed)
        avgTurnaroundTime := if 0 < completed then runtime / completed
          else s.stats.avgTurnaroundTime } }
      let s := s.setState H p .terminated
      ({ s with table := H.pcbFree s.table p }, 0)

/-- The old process in `scheduler_schedule`: unless it is the idle process, it waits again if it
was running. -/
def putBack (s : State) : State :=
  match s.current with
  | none => s
  | some c =>
    if s.idle = some c then s
    else if (s.pcb c).state = .running then addToReadyQueueInternal H (s.setState H c .ready) c
    else s

/-- The new process in `scheduler_schedule`. -/
def dispatch (s : State) (next : Slot) : State :=
  let s := s.setState H next .running
  let s := s.setPcb next fun q => { q with timeStarted := s.systemTicks, timeSliceUsed := 0 }
  let s := removeFromReadyQueueInternal H s next
  { s with
    current := some next
    lastScheduleTime := s.systemTicks
    needReschedule := false }

/-- `scheduler_schedule`. -/
def schedule (s : State) : Option State :=
  if s.schedulerRunning = false then some s else
    let r := getNextProcess H s
    let next := r.2.or s.idle
    if s.current = next then some r.1 else do
      let s := { r.1 with stats := { r.1.stats with
        contextSwitches := r.1.stats.contextSwitches + 1 } }
      let s := putBack H s
      let next ← next
      return dispatch H s next

/-- `scheduler_tick_handler`; `load_balance` only prints. -/
def tickHandler (s : State) : Option State := do
  let s := { s with systemTicks := s.systemTicks + 1 }
  let s ← updateSchedulerStats (checkSleepingProcesses H (updateProcessTimes H s))
  if s.config.enableMulticore ∧ s.config.loadBalanceInterval = 0 then none
  else if s.needReschedule ∨ ∃ c ∈ s.current, s.config.enablePreemption ∧
      (s.pcb c).timeSlice ≤ (s.pcb c).timeSliceUsed then
    schedule H { s with needReschedule := true }
  else return s

/-- `scheduler_yield`. -/
def yield (s : State) : Option State :=
  let s := match s.current with
    | none => s
    | some c =>
      if s.idle = some c then s else
        let s := if (s.pcb c).flags &&& PROCESS_FLAG_SCHED_MLFQ = 0 then s
          else s.setPcb c fun q => { q with timeInQueue := 0 }
        { s with needReschedule := true }
  schedule H s

/-- `scheduler_block_process`. -/
def blockProcess (s : State) : Option (State × Int32) :=
  match s.current with
  | none => some (s, -1)
  | some c =>
    if s.idle = some c then some (s, -1) else
      let s := s.setState H c .blocked
      (schedule H { s with
        waitQueue := H.waitQueueEnqueue s.waitQueue c
        needReschedule := true }).map fun s => (s, 0)

/-- `scheduler_wakeup_process`. -/
def wakeupProcess (s : State) (pid : UInt32) : State × Int32 :=
  match s.waitQueue.nodes.find? fun p => (s.pcb p).pid = pid with
  | none => (s, -1)
  | some p =>
    let s := { s with waitQueue := H.waitQueueRemove s.waitQueue p }
    (addToReadyQueueInternal H (s.setState H p .ready) p, 0)

/-- `scheduler_sleep_process`. -/
def sleepProcess (s : State) (ticks : UInt32) : Option (State × Int32) :=
  match s.current with
  | none => some (s, -1)
  | some c =>
    if s.idle = some c then some (s, -1) else
      let s := s.setState H c .sleeping
      let s := s.setPcb c fun q => { q with deadline := s.systemTicks + ticks }
      (schedule H { s with
        sleepQueue := H.waitQueueEnqueue s.sleepQueue c
        needReschedule := true }).map fun s => (s, 0)

/-- `scheduler_set_priority`. -/
def setPriority (s : State) (pid : UInt32) (priority : UInt8) : State × Int32 :=
  match H.processTableFind s.table pid with
  | none => (s, -1)
  | some p =>
    let priority := if 4 ≤ priority then 3 else priority
    let s := s.setPcb p fun q => H.pcbSetPriority q priority
    let s := s.setPcb p fun q => { q with
      timeSlice := H.calculateTimeSlice priority s.config.timeQuantum }
    (if (s.pcb p).state = .ready then
      addToReadyQueueInternal H (removeFromReadyQueueInternal H s p) p else s, 0)

/-! ## Initialisation -/

/-- The configuration that a `NULL` argument stands for. -/
def defaultConfig : Config where
  schedulerType := .mlfq
  timeQuantum := TIME_SLICE_BASE
  enablePreemption := true
  enableMulticore := false
  numPriorityLevels := 4
  boostInterval := 1000
  loadBalanceInterval := 500

/-- The state `scheduler_init` creates the idle process in; only the static variables survive. -/
def initialState (statics : Statics) (config : Config) : State where
  config := config
  table := H.processTableInit ⟨fun _ => Pcb.zero, fun _ => false, 0⟩
  mlfq := if config.schedulerType = .mlfq then
      H.mlfqInit config.numPriorityLevels config.boostInterval
    else ⟨fun _ => [], 0⟩
  readyQueue := H.readyQueueInit config.timeQuantum
  waitQueue := H.waitQueueInit
  sleepQueue := H.waitQueueInit
  current := none
  idle := none
  stats := ⟨0, 0, 0, 0, 0, 0, 0, 0, 0⟩
  systemTicks := 0
  lastScheduleTime := 0
  schedulerRunning := false
  needReschedule := false
  statics := statics

/-- `scheduler_init`; the idle process stays in the queue it was created in. -/
def schedulerInit (statics : Statics) (config : Option Config) : State :=
  let r := createProcess H (initialState H statics (config.getD defaultConfig))
    [105, 100, 108, 101] .system 3 PROCESS_FLAG_CPU_BOUND
  match r.2 with
  | none => r.1
  | some p =>
    let s := { r.1 with idle := some p, current := some p }
    let s := s.setPcb p fun q => { q with state := .running }
    { s with
      systemTicks := 0
      lastScheduleTime := 0
      schedulerRunning := true
      needReschedule := false }

end Code

/-! ## What the parts write -/

section Frames

variable {H : Helpers} {s t : State} {p : Slot}

/-- Queueing writes the ready structure only. -/
theorem add_eq (H : Helpers) (s : State) (p : Slot) :
    ∃ m l, addToReadyQueueInternal H s p = { s with mlfq := m, readyQueue := l } := by
  unfold addToReadyQueueInternal
  split
  · exact ⟨s.mlfq, s.readyQueue, rfl⟩
  · split
    · exact ⟨_, s.readyQueue, rfl⟩
    · exact ⟨s.mlfq, _, rfl⟩
    · exact ⟨s.mlfq, _, rfl⟩
    · exact ⟨s.mlfq, s.readyQueue, rfl⟩

theorem add_table (H : Helpers) (s : State) (p : Slot) :
    (addToReadyQueueInternal H s p).table = s.table := by
  obtain ⟨m, l, h⟩ := add_eq H s p
  rw [h]

/-- Removal writes the ready queue only. -/
theorem remove_eq (s : State) (p : Slot) :
    ∃ l, removeFromReadyQueueInternal H s p = { s with readyQueue := l } := by
  unfold removeFromReadyQueueInternal
  split
  · exact ⟨s.readyQueue, rfl⟩
  · exact ⟨_, rfl⟩
  · exact ⟨_, rfl⟩
  · exact ⟨s.readyQueue, rfl⟩

/-- The pick writes the ready structure only. -/
theorem getNextProcess_frame (s : State) : (getNextProcess H s).1.table = s.table ∧
    (getNextProcess H s).1.current = s.current ∧ (getNextProcess H s).1.idle = s.idle := by
  unfold getNextProcess
  split <;> exact ⟨rfl, rfl, rfl⟩

/-- The statistics of a tick write nothing else. -/
theorem updateSchedulerStats_eq (h : updateSchedulerStats s = some t) :
    ∃ st sc, t = { s with stats := st, statics := sc } := by
  have h1 : ∀ (s : State) (n : UInt32), ∃ st sc,
      updateUtilization s n = { s with stats := st, statics := sc } := by
    intro s n
    unfold updateUtilization
    split
    · exact ⟨_, _, rfl⟩
    · exact ⟨s.stats, s.statics, rfl⟩
  have h2 : ∀ s : State, ∃ st sc,
      updateThroughput s = { s with stats := st, statics := sc } := by
    intro s
    unfold updateThroughput
    dsimp only
    split
    · exact ⟨_, _, rfl⟩
    · exact ⟨s.stats, s.statics, rfl⟩
  obtain ⟨i, -, h⟩ := Option.bind_eq_some_iff.mp h
  cases h
  obtain ⟨st, sc, he⟩ := h1 s (s.pcb i).timeUsed
  obtain ⟨st', sc', he'⟩ := h2 { s with stats := st, statics := sc }
  rw [he, he']
  exact ⟨st', sc', rfl⟩

/-- **`update_process_times`** writes the PCB of the current process three times at most, the last
time through `mlfq_adjust_priority`: what these writes keep, it keeps. -/
theorem updateProcessTimes_induction {P : State → Prop} (h0 : P s)
    (hset : ∀ c u (f : Pcb → Pcb), s.current = some c → s.idle ≠ some c →
      (∀ q, (f q).state = q.state ∧ (f q).deadline = q.deadline) → P u → P (u.setPcb c f))
    (hadjust : ∀ c u, s.current = some c → s.idle ≠ some c → P u →
      let r := H.mlfqAdjustPriority u.mlfq c (u.pcb c) true
      P (State.setPcb { u with mlfq := r.1 } c fun _ => r.2)) : P (updateProcessTimes H s) := by
  unfold updateProcessTimes
  split
  · exact h0
  · rename_i c hc
    split
    · exact h0
    · rename_i hci
      have h1 : P (s.setPcb c fun q => { q with
          timeUsed := q.timeUsed + 1
          timeSliceUsed := q.timeSliceUsed + 1
          vruntime := q.vruntime + 1 }) := hset c s _ hc hci (fun _ => ⟨rfl, rfl⟩) h0
      dsimp only
      split
      · exact h1
      · have h2 := hset c _ (fun q => { q with timeInQueue := q.timeInQueue + 1 }) hc hci
          (fun _ => ⟨rfl, rfl⟩) h1
        split
        · exact h2
        · exact hadjust c _ hc hci h2

/-- One more context switch. -/
def State.switched (s : State) : State :=
  { s with stats := { s.stats with contextSwitches := s.stats.contextSwitches + 1 } }

/-- **`scheduler_schedule`** does nothing, finds the current process again, or switches. -/
theorem schedule_cases (h : schedule H s = some t) :
    s.schedulerRunning = false ∧ t = s ∨
    s.current = (getNextProcess H s).2.or s.idle ∧ t = (getNextProcess H s).1 ∨
    ∃ x, (getNextProcess H s).2.or s.idle = some x ∧ s.current ≠ some x ∧
      t = dispatch H (putBack H (getNextProcess H s).1.switched) x := by
  unfold schedule at h
  split at h
  · rename_i hrun
    cases h
    exact .inl ⟨hrun, rfl⟩
  · dsimp only at h
    split at h
    · rename_i hcur
      cases h
      exact .inr (.inl ⟨hcur, rfl⟩)
    · rename_i hcur
      obtain ⟨x, hx, h⟩ := Option.bind_eq_some_iff.mp h
      cases h
      exact .inr (.inr ⟨x, hx, fun he => hcur (he.trans hx.symm), rfl⟩)

/-- **`scheduler_yield`** asks for a switch if another process than the idle one runs, and resets
its time in the queue under MLFQ. -/
theorem yield_cases (h : yield H s = some t) : ∃ u, schedule H u = some t ∧
    (u = s ∨ u = { s with needReschedule := true } ∨
      ∃ c, u = { s.setPcb c fun q => { q with timeInQueue := 0 } with
        needReschedule := true }) := by
  unfold yield at h
  refine ⟨_, h, ?_⟩
  split
  · exact .inl rfl
  · rename_i c hc
    split
    · exact .inl rfl
    · dsimp only
      split
      · exact .inr (.inl rfl)
      · exact .inr (.inr ⟨c, rfl⟩)

/-- **`scheduler_block_process`** does nothing, or the current process waits. -/
theorem blockProcess_cases {r : Int32} (h : blockProcess H s = some (t, r)) : t = s ∨
    ∃ c, s.current = some c ∧ s.idle ≠ some c ∧
      schedule H { s.setState H c .blocked with
        waitQueue := H.waitQueueEnqueue s.waitQueue c
        needReschedule := true } = some t := by
  unfold blockProcess at h
  split at h
  · cases h
    exact .inl rfl
  · rename_i c hc
    split at h
    · cases h
      exact .inl rfl
    · rename_i hci
      obtain ⟨u, hu, h⟩ := Option.map_eq_some_iff.mp h
      cases h
      exact .inr ⟨c, hc, hci, hu⟩

/-- **`scheduler_sleep_process`** fails, or the current process sleeps. -/
theorem sleepProcess_cases {ticks : UInt32} {r : Int32}
    (h : sleepProcess H s ticks = some (t, r)) : t = s ∧ r = -1 ∨
    ∃ c, s.current = some c ∧ s.idle ≠ some c ∧
      schedule H { (s.setState H c .sleeping).setPcb c fun q =>
          { q with deadline := s.systemTicks + ticks } with
        sleepQueue := H.waitQueueEnqueue s.sleepQueue c
        needReschedule := true } = some t := by
  unfold sleepProcess at h
  split at h
  · cases h
    exact .inl ⟨rfl, rfl⟩
  · rename_i c hc
    split at h
    · cases h
      exact .inl ⟨rfl, rfl⟩
    · rename_i hci
      obtain ⟨u, hu, h⟩ := Option.map_eq_some_iff.mp h
      cases h
      exact .inr ⟨c, hc, hci, hu⟩

/-- **`scheduler_tick_handler`** charges the current process, wakes the sleepers and writes the
statistics; then it may switch. -/
theorem tickHandler_cases (h : tickHandler H s = some t) : ∃ u,
    updateSchedulerStats (checkSleepingProcesses H
      (updateProcessTimes H { s with systemTicks := s.systemTicks + 1 })) = some u ∧
    ((u.needReschedule = true ∨ ∃ c ∈ u.current, u.config.enablePreemption = true ∧
        (u.pcb c).timeSlice ≤ (u.pcb c).timeSliceUsed) ∧
        schedule H { u with needReschedule := true } = some t ∨
      ¬ (u.needReschedule = true ∨ ∃ c ∈ u.current, u.config.enablePreemption = true ∧
        (u.pcb c).timeSlice ≤ (u.pcb c).timeSliceUsed) ∧ t = u) := by
  obtain ⟨u, hu, h⟩ := Option.bind_eq_some_iff.mp h
  split at h
  · cases h
  · split at h
    · rename_i hsw
      exact ⟨u, hu, .inl ⟨hsw, h⟩⟩
    · rename_i hsw
      cases h
      exact ⟨t, hu, .inr ⟨hsw, rfl⟩⟩

end Frames

/-! ## Runs -/

/-- The calls the rest of the kernel makes, and the timer interrupt. -/
inductive Op where
  | create (name : List UInt8) (type : ProcessType) (priority : UInt8) (flags : UInt32)
  | terminate (pid : UInt32) (exitCode : Int32)
  | reap (pid : UInt32)
  | schedule
  | tick
  | yield
  | block
  | wakeup (pid : UInt32)
  | sleep (ticks : UInt32)
  | setPriority (pid : UInt32) (priority : UInt8)
  deriving DecidableEq, Repr

def step (H : Helpers) (s : State) : Op → Option State
  | .create name type priority flags => some (createProcess H s name type priority flags).1
  | .terminate pid exitCode => some (terminateProcess H s pid exitCode).1
  | .reap pid => some (reapProcess H s pid).1
  | .schedule => schedule H s
  | .tick => tickHandler H s
  | .yield => yield H s
  | .block => (blockProcess H s).map (·.1)
  | .wakeup pid => some (wakeupProcess H s pid).1
  | .sleep ticks => (sleepProcess H s ticks).map (·.1)
  | .setPriority pid priority => some (setPriority H s pid priority).1

/-- A call that returns. -/
def Step (H : Helpers) (s : State) (op : Op) (s' : State) : Prop := step H s op = some s'

end OSCompas.Kernel
