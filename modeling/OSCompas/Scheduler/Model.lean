import OSCompas.Lib.Runs
import Mathlib.Data.List.FinRange
import Mathlib.Logic.Function.Basic
import Mathlib.Algebra.Ring.Nat

/-!
# The process scheduler (`lab3-2-sparrowos-scheduler/src/scheduler.c`)

The scheduler as `scheduler.c` computes it, over the structures of `include/pcb.h` and
`include/scheduler.h`; the undeclared case label `SCHFQ_MLFQ` is read as `SCHED_MLFQ`.

A `pcb_t *` is a slot of `process_table`, or `none` for `NULL`.  The `next` and `prev` fields of
all PCBs stand beside the table (`Links`), together with the five queues they thread:
`ready_queue` and `mlfq.queues[0..3]`.  A result `none` is a dereference of `NULL`.  Output is
left out.

* `Links.enqueue`, `Links.dequeue`, `Links.unlink` — the pointer code the two halves of every
  queue function share;
* `schedulerInit`, `createProcess`, `terminateProcess`, `yield`, `tick`, `schedule`;
* `Op`, `step` — the calls the rest of the kernel makes.
-/

set_option autoImplicit false

namespace OSCompas.Scheduler

open Function

/-- `process_state_t`. -/
inductive ProcessState where
  | new
  | ready
  | running
  | blocked
  | terminated
  deriving DecidableEq, Repr

/-- `scheduler_type_t`. -/
inductive SchedulerType where
  | fifo
  | rr
  | mlfq
  | cfs
  deriving DecidableEq, Repr

abbrev MAX_PROCESSES : Nat := 64

abbrev MAX_PRIORITY_LEVELS : Nat := 4

instance : NeZero MAX_PRIORITY_LEVELS := ⟨by decide⟩

def TIME_SLICE_BASE : UInt32 := 10

/-- An entry of `process_table`. -/
abbrev Slot := Fin MAX_PROCESSES

instance lawfulSlot : LawfulBEq Slot := inferInstance

/-- `pcb_t`, but for its links and for the fields no function below reads or writes. -/
structure Pcb where
  pid : UInt32
  name : List UInt8
  state : ProcessState
  priority : UInt8
  priorityOriginal : UInt32
  timeCreated : UInt32
  timeStarted : UInt32
  timeUsed : UInt32
  timeSlice : UInt32
  timeSliceUsed : UInt32
  vruntime : UInt32
  regEsp : UInt32
  regEip : UInt32
  timeInQueue : UInt32
  promotions : UInt8
  deriving DecidableEq, Repr

/-- A PCB of zero bytes. -/
def Pcb.zero : Pcb := ⟨0, [], .new, 0, 0, 0, 0, 0, 0, 0, 0, 0, 0, 0, 0⟩

/-- `ready_queue_t`. -/
structure ReadyQueue where
  head : Option Slot
  tail : Option Slot
  count : UInt32
  deriving DecidableEq, Repr

/-- `ready_queue`, or one of `mlfq.queues`. -/
inductive QueueId where
  | ready
  | level (i : Fin MAX_PRIORITY_LEVELS)
  deriving DecidableEq, Repr

/-- The queues and the links that thread them. -/
structure Links where
  next : Slot → Option Slot
  prev : Slot → Option Slot
  queue : QueueId → ReadyQueue

/-- `scheduler_config_t`. -/
structure Config where
  type : SchedulerType
  timeQuantum : UInt32
  enablePreemption : UInt8
  mlfqLevels : UInt8
  boostInterval : UInt32
  deriving DecidableEq, Repr

/-- The counters of `scheduler_stats_t` that are written. -/
structure Stats where
  contextSwitches : UInt32
  processesCompleted : UInt32
  totalRuntime : UInt32
  deriving DecidableEq, Repr

/-- The variables of `scheduler.c`. -/
structure State where
  pcb : Slot → Pcb
  links : Links
  current : Option Slot
  config : Config
  timeSlices : Fin MAX_PRIORITY_LEVELS → UInt32
  boostInterval : UInt32
  lastBoostTime : UInt32
  stats : Stats
  nextPid : UInt32
  systemTicks : UInt32

/-! ## Pointer code -/

namespace Links

/-- Append `p` to the queue `k` without clearing its links. -/
def append (l : Links) (k : QueueId) (p : Slot) : Option Links :=
  let q := l.queue k
  match q.head with
  | none => some { l with queue := update l.queue k ⟨some p, some p, q.count + 1⟩ }
  | some h =>
    match q.tail with
    | none => none
    | some t => some {
        next := update l.next t (some p)
        prev := update l.prev p (some t)
        queue := update l.queue k ⟨some h, some p, q.count + 1⟩ }

/-- The body of `add_to_ready_queue`. -/
def enqueue (l : Links) (k : QueueId) (p : Slot) : Option Links :=
  append { l with next := update l.next p none, prev := update l.prev p none } k p

/-- Take the head off the queue `k`. -/
def dequeue (l : Links) (k : QueueId) : Option (Links × Option Slot) :=
  let q := l.queue k
  if q.head = q.tail then
    some ({ l with queue := update l.queue k ⟨none, none, q.count - 1⟩ }, q.head)
  else
    match q.head with
    | none => none
    | some h =>
      let prev := match l.next h with
        | none => l.prev
        | some y => update l.prev y none
      some ({ l with
        prev := prev
        queue := update l.queue k ⟨l.next h, q.tail, q.count - 1⟩ }, some h)

/-- The body of `remove_from_ready_queue`. -/
def unlink (l : Links) (k : QueueId) (p : Slot) : Links :=
  let l := match l.prev p with
    | some a => { l with next := update l.next a (l.next p) }
    | none => { l with queue := update l.queue k { l.queue k with head := l.next p } }
  let l := match l.next p with
    | some b => { l with prev := update l.prev b (l.prev p) }
    | none => { l with queue := update l.queue k { l.queue k with tail := l.prev p } }
  let count := (l.queue k).count
  { next := update l.next p none
    prev := update l.prev p none
    queue := update l.queue k
      { l.queue k with count := if count > 0 then count - 1 else count } }

end Links

/-! ## The scheduler -/

/-- `scheduler_init`: everything is zeroed first. -/
def schedulerInit (config : Config) : State where
  pcb := fun _ => { Pcb.zero with
    timeSlice := if config.type = .rr then config.timeQuantum else 0 }
  links := ⟨fun _ => none, fun _ => none, fun _ => ⟨none, none, 0⟩⟩
  current := none
  config := config
  timeSlices := fun i =>
    if config.type = .mlfq ∧ i.val < min config.mlfqLevels.toNat MAX_PRIORITY_LEVELS then
      TIME_SLICE_BASE * 2 ^ i.val
    else 0
  boostInterval := if config.type = .mlfq then config.boostInterval else 0
  lastBoostTime := 0
  stats := ⟨0, 0, 0⟩
  nextPid := 1
  systemTicks := 0

/-- `process_table[p].state = state`. -/
def State.setState (s : State) (p : Slot) (state : ProcessState) : State :=
  { s with pcb := update s.pcb p { s.pcb p with state := state } }

/-- The queue a process belongs to: by its priority, cut off at the lowest level, under MLFQ. -/
def State.homeQueue (s : State) (p : Slot) : QueueId :=
  if s.config.type = .mlfq then
    .level ⟨min (s.pcb p).priority.toNat 3, by show _ < 4; omega⟩
  else .ready

/-- `find_free_pcb`. -/
def findFreePcb (s : State) : Option Slot :=
  (List.finRange MAX_PROCESSES).find? fun i =>
    (s.pcb i).state = .terminated ∨ (s.pcb i).pid = 0

/-- `add_to_ready_queue`. -/
def addToReadyQueue (s : State) (p : Slot) : Option State :=
  (s.links.enqueue (s.homeQueue p) p).map fun l => { s with links := l }

/-- `remove_from_ready_queue` returns early on a priority that `add_to_ready_queue` cuts off. -/
def State.unmanaged (s : State) (p : Slot) : Prop :=
  s.config.type = .mlfq ∧ MAX_PRIORITY_LEVELS ≤ (s.pcb p).priority.toNat

instance (s : State) (p : Slot) : Decidable (s.unmanaged p) := inferInstanceAs (Decidable (_ ∧ _))

/-- `remove_from_ready_queue`. -/
def removeFromReadyQueue (s : State) (p : Slot) : State :=
  if s.unmanaged p then s else { s with links := s.links.unlink (s.homeQueue p) p }

/-- `scheduler_fifo_schedule`. -/
def fifoSchedule (s : State) : Option (State × Option Slot) :=
  if (s.links.queue .ready).count = 0 then some (s, none)
  else (s.links.dequeue .ready).map fun r => ({ s with links := r.1 }, r.2)

/-- `scheduler_rr_schedule`. -/
def rrSchedule (s : State) : Option (State × Option Slot) := do
  let (s, next) ← fifoSchedule s
  match next, s.current with
  | some _, some c =>
    if (s.pcb c).state = .ready then return (← addToReadyQueue s c, next) else return (s, next)
  | _, _ => return (s, next)

/-- The first level with a positive count. -/
def State.firstLevel (s : State) : Option (Fin MAX_PRIORITY_LEVELS) :=
  (List.finRange MAX_PRIORITY_LEVELS).find? fun i => (s.links.queue (.level i)).count > 0

/-- `scheduler_mlfq_schedule`. -/
def mlfqSchedule (s : State) : Option (State × Option Slot) :=
  match s.firstLevel with
  | none => some (s, none)
  | some i => do
    let (l, next) ← s.links.dequeue (.level i)
    let p ← next
    return ({ s with
      links := l
      pcb := update s.pcb p { s.pcb p with timeSlice := s.timeSlices i, timeInQueue := 0 } },
      some p)

/-- The policy's choice in `scheduler_schedule`. -/
def selectNext (s : State) : Option (State × Option Slot) :=
  match s.config.type with
  | .fifo => fifoSchedule s
  | .rr => rrSchedule s
  | .mlfq => mlfqSchedule s
  | .cfs => fifoSchedule s

/-- The context switch of `scheduler_schedule` to `next`, once the old process is dealt with. -/
def switchTo (s : State) (next : Slot) : State :=
  let s := { s with
    current := some next
    pcb := update s.pcb next { s.pcb next with
      state := .running, timeStarted := s.systemTicks, timeSliceUsed := 0 } }
  let s := removeFromReadyQueue s next
  { s with stats := { s.stats with contextSwitches := s.stats.contextSwitches + 1 } }

/-- `scheduler_schedule`.  The test for `PROCESS_BLOCKED` follows the assignment of
`PROCESS_READY`, so the old process always is added. -/
def schedule (s : State) : Option State := do
  let (s, next) ← selectNext s
  match next with
  | none => return s
  | some x =>
    if s.current = some x then return s else
    match s.current with
    | none => return switchTo s x
    | some c => return switchTo (← addToReadyQueue (s.setState c .ready) c) x

/-- `scheduler_create_process`; the result `none` inside is `NULL`. -/
def createProcess (s : State) (name : List UInt8) (priority : UInt8) :
    Option (State × Option Slot) :=
  match findFreePcb s with
  | none => some (s, none)
  | some p => do
    let pcb := { s.pcb p with
      pid := s.nextPid
      name := name.take 31
      state := .ready
      priority := priority
      priorityOriginal := priority.toUInt32
      timeCreated := s.systemTicks
      timeStarted := 0
      timeUsed := 0
      timeSlice := TIME_SLICE_BASE * (4 - priority.toUInt32)
      timeSliceUsed := 0
      vruntime := 0
      regEsp := 0x1000 + s.nextPid * 0x1000
      regEip := 0x400000 }
    let s ← addToReadyQueue { s with pcb := update s.pcb p pcb, nextPid := s.nextPid + 1 } p
    return (s, some p)

/-- The slot `scheduler_terminate_process` finds for `pid`. -/
def findProcess (s : State) (pid : UInt32) : Option Slot :=
  (List.finRange MAX_PROCESSES).find? fun i =>
    (s.pcb i).pid = pid ∧ (s.pcb i).state ≠ .terminated

/-- `scheduler_terminate_process` up to the test for the current process. -/
def retire (s : State) (i : Slot) : State :=
  let s := removeFromReadyQueue (s.setState i .terminated) i
  { s with stats := { s.stats with
      processesCompleted := s.stats.processesCompleted + 1
      totalRuntime := s.stats.totalRuntime + (s.pcb i).timeUsed } }

/-- `scheduler_terminate_process`. -/
def terminateProcess (s : State) (pid : UInt32) : Option State :=
  match findProcess s pid with
  | none => some s
  | some i =>
    let s := retire s i
    match s.current with
    | none => some s
    | some c => if (s.pcb c).pid = pid then schedule { s with current := none } else some s

/-- `scheduler_yield`. -/
def yield (s : State) : Option State :=
  match s.current with
  | none => schedule s
  | some c => do schedule (← addToReadyQueue (s.setState c .ready) c)

/-- One round of the loop of `scheduler_mlfq_boost_priority` at level `i`. -/
def boostOne (s : State) (i : Fin MAX_PRIORITY_LEVELS) : Option State := do
  let (l, head) ← s.links.dequeue (.level i)
  let p ← head
  let l ← l.append (.level 0) p
  return { s with
    links := l
    pcb := update s.pcb p { s.pcb p with
      priority := 0, timeInQueue := 0, promotions := (s.pcb p).promotions + 1 } }

/-- The `while` loop at level `i`; every round takes one off the count. -/
def boostLevel (i : Fin MAX_PRIORITY_LEVELS) : Nat → State → Option State
  | 0, s => some s
  | n + 1, s => (boostOne s i).bind (boostLevel i n)

/-- `scheduler_mlfq_boost_priority`. -/
def boostPriority (s : State) : Option State := do
  let s ← boostLevel 1 (s.links.queue (.level 1)).count.toNat s
  let s ← boostLevel 2 (s.links.queue (.level 2)).count.toNat s
  boostLevel 3 (s.links.queue (.level 3)).count.toNat s

/-- The counters `scheduler_tick` advances for the current process `c`. -/
def charge (s : State) (c : Slot) : State :=
  { s with pcb := update s.pcb c { s.pcb c with
      timeUsed := (s.pcb c).timeUsed + 1
      timeSliceUsed := (s.pcb c).timeSliceUsed + 1
      vruntime := (s.pcb c).vruntime + 1 } }

/-- The end of `scheduler_tick` under MLFQ. -/
def tickMlfq (s : State) : Option State := do
  let c ← s.current
  let s := { s with pcb := update s.pcb c { s.pcb c with
    timeInQueue := (s.pcb c).timeInQueue + 1 } }
  if s.boostInterval ≤ s.systemTicks - s.lastBoostTime then
    let s ← boostPriority s
    return { s with lastBoostTime := s.systemTicks }
  else return s

/-- `scheduler_tick`. -/
def tick (s : State) : Option State :=
  let s := { s with systemTicks := s.systemTicks + 1 }
  match s.current with
  | none => some s
  | some c => do
    let s := charge s c
    let s ← if s.config.enablePreemption ≠ 0 ∧ (s.pcb c).timeSlice ≤ (s.pcb c).timeSliceUsed then
        yield s
      else some s
    if s.config.type = .mlfq then tickMlfq s else return s

/-! ## Runs -/

/-- The calls the rest of the kernel makes. -/
inductive Op where
  | create (name : List UInt8) (priority : UInt8)
  | terminate (pid : UInt32)
  | yield
  | tick
  | schedule
  deriving DecidableEq, Repr

def step (s : State) : Op → Option State
  | .create name priority => (createProcess s name priority).map (·.1)
  | .terminate pid => terminateProcess s pid
  | .yield => yield s
  | .tick => tick s
  | .schedule => schedule s

/-- A call that returns. -/
def Step (s : State) (op : Op) (s' : State) : Prop := step s op = some s'

theorem run_of_exec {ok : State → Op → Prop} [∀ s op, Decidable (ok s op)] {s s' : State}
    {ops : List Op} (h : Runs.exec step (fun s op => decide (ok s op)) s ops = some s') :
    Runs.Reaches Step ok s s' :=
  Runs.reaches_of_exec (fun _ _ hb => of_decide_eq_true hb) (fun _ _ _ hs => hs) h

theorem anyRun_of_exec {s s' : State} {ops : List Op}
    (h : Runs.exec step (fun _ _ => true) s ops = some s') :
    Runs.Reaches Step Runs.anyAction s s' :=
  Runs.reaches_of_exec (fun _ _ _ => trivial) (fun _ _ _ hs => hs) h

end OSCompas.Scheduler
