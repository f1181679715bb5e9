import OSCompas.Kernel.Helpers

/-!
# Initialisation and the past

`scheduler_init` clears `scheduler_state`, but the static variables of `update_scheduler_stats`
keep the values of the life before.

* `Past` — the static variables, and the two statistics that are computed from them;
* `Past.next` — what `update_scheduler_stats` makes of them;
* `Life` — the static variables after some lives of the scheduler;
* `Settled` — the condition.

Principal results: `step_withPast` (nothing else depends on the past), `tick_settled` and
`init_forgets`.
-/

set_option autoImplicit false

namespace OSCompas.Kernel

open Function Runs

variable {H : Helpers} {s s' t : State} {p q : Slot} {op : Op}

/-- The static variables and the statistics that are computed from them. -/
structure Past where
  statics : Statics
  cpuUtilization : UInt32
  throughput : UInt32
  deriving DecidableEq, Repr

def State.past (s : State) : Past := ⟨s.statics, s.stats.cpuUtilization, s.stats.throughput⟩

/-- The state with another past. -/
def State.withPast (s : State) (k : Past) : State :=
  { s with
    statics := k.statics
    stats := { s.stats with cpuUtilization := k.cpuUtilization, throughput := k.throughput } }

/-- `update_scheduler_stats` at the tick `now`, as a function of the past. -/
def Past.next (now idleTime completed : UInt32) (k : Past) : Past :=
  let k := if k.statics.lastTotalTime < now then
      { k with
        cpuUtilization := if 0 < now - k.statics.lastTotalTime then
            100 - (idleTime - k.statics.lastIdleTime) * 100 / (now - k.statics.lastTotalTime)
          else k.cpuUtilization
        statics := { k.statics with lastIdleTime := idleTime, lastTotalTime := now } }
    else k
  if 1000 ≤ now - k.statics.lastTime then
    { k with
      throughput := if 0 < now - k.statics.lastTime then
          (completed - k.statics.lastCompleted) * 1000 / (now - k.statics.lastTime)
        else k.throughput
      statics := { k.statics with lastCompleted := completed, lastTime := now } }
  else k

/-! ## The parts of the state -/

section Parts

variable (s) (k : Past)

@[simp] theorem withPast_past : s.withPast s.past = s := rfl

@[simp] theorem past_withPast : (s.withPast k).past = k := rfl

@[simp] theorem withPast_withPast (k' : Past) : (s.withPast k).withPast k' = s.withPast k' := rfl

@[simp] theorem withPast_config : (s.withPast k).config = s.config := rfl

@[simp] theorem withPast_table : (s.withPast k).table = s.table := rfl

@[simp] theorem withPast_pcb : (s.withPast k).pcb p = s.pcb p := rfl

@[simp] theorem withPast_mlfq : (s.withPast k).mlfq = s.mlfq := rfl

@[simp] theorem withPast_readyQueue : (s.withPast k).readyQueue = s.readyQueue := rfl

@[simp] theorem withPast_waitQueue : (s.withPast k).waitQueue = s.waitQueue := rfl

@[simp] theorem withPast_sleepQueue : (s.withPast k).sleepQueue = s.sleepQueue := rfl

@[simp] theorem withPast_current : (s.withPast k).current = s.current := rfl

@[simp] theorem withPast_idle : (s.withPast k).idle = s.idle := rfl

@[simp] theorem withPast_systemTicks : (s.withPast k).systemTicks = s.systemTicks := rfl

@[simp] theorem withPast_schedulerRunning :
    (s.withPast k).schedulerRunning = s.schedulerRunning := rfl

@[simp] theorem withPast_needReschedule : (s.withPast k).needReschedule = s.needReschedule := rfl

@[simp] theorem withPast_processesCompleted :
    (s.withPast k).stats.processesCompleted = s.stats.processesCompleted := rfl

@[simp] theorem setPcb_withPast (f : Pcb → Pcb) :
    (s.withPast k).setPcb p f = (s.setPcb p f).withPast k := rfl

@[simp] theorem setState_withPast (st : ProcessState) :
    (s.withPast k).setState H p st = (s.setState H p st).withPast k := rfl

end Parts

/-! ## The functions -/

section Functions

variable (H) (s) (k : Past)

/-- The branches of a conditional, with their common function brought out. -/
theorem ite_eq_apply {α β : Type} (f : α → β) {c : Prop} {d d' : Decidable c} {a b : β} {a' b' : α}
    (ha : a = f a') (hb : b = f b') : @ite β c d a b = f (@ite α c d' a' b') := by
  by_cases hc : c
  · simpa [hc] using ha
  · simpa [hc] using hb

/-- Two branches whose states differ in the past only. -/
theorem ite_withPast {k : Past} {c : Prop} {d d' : Decidable c} {a b a' b' : State}
    (ha : a = a'.withPast k) (hb : b = b'.withPast k) :
    @ite State c d a b = (@ite State c d' a' b').withPast k :=
  ite_eq_apply (State.withPast · k) ha hb

theorem getNextProcess_withPast : getNextProcess H (s.withPast k) =
    ((getNextProcess H s).1.withPast k, (getNextProcess H s).2) := by
  unfold getNextProcess
  simp only [withPast_config]
  cases s.config.schedulerType <;> rfl

@[simp] theorem add_withPast : addToReadyQueueInternal H (s.withPast k) p =
    (addToReadyQueueInternal H s p).withPast k := by
  unfold addToReadyQueueInternal
  simp only [withPast_config]
  apply ite_withPast rfl
  cases s.config.schedulerType <;> rfl

@[simp] theorem remove_withPast : removeFromReadyQueueInternal H (s.withPast k) p =
    (removeFromReadyQueueInternal H s p).withPast k := by
  unfold removeFromReadyQueueInternal
  simp only [withPast_config]
  cases s.config.schedulerType <;> rfl

@[simp] theorem updateProcessTimes_withPast : updateProcessTimes H (s.withPast k) =
    (updateProcessTimes H s).withPast k := by
  unfold updateProcessTimes
  simp only [withPast_current]
  cases s.current with
  | none => rfl
  | some c =>
    -- the idle process, a process outside MLFQ, and one below the threshold of its queue
    exact ite_withPast rfl (ite_withPast rfl (ite_withPast rfl rfl))

@[simp] theorem checkSleepingProcesses_withPast : checkSleepingProcesses H (s.withPast k) =
    (checkSleepingProcesses H s).withPast k := by
  have hloop : ∀ (l : List Slot) (s : State) kept, checkSleepingLoop H (s.withPast k) kept l =
      (checkSleepingLoop H s kept l).withPast k := by
    intro l
    induction l with
    | nil => exact fun _ _ => rfl
    | cons p rest ih =>
      intro s kept
      unfold checkSleepingLoop
      refine ite_withPast ?_ (ih s _)
      rw [← ih, ← add_withPast]
      rfl
  exact hloop _ s []

/-- The statistics of a tick read the ticks, the time of the idle process and how many processes
were completed. -/
theorem updateSchedulerStats_withPast : updateSchedulerStats (s.withPast k) =
    s.idle.map fun i => s.withPast
      (k.next s.systemTicks (s.pcb i).timeUsed s.stats.processesCompleted) := by
  unfold updateSchedulerStats
  simp only [withPast_idle]
  cases s.idle with
  | none => rfl
  | some i =>
    simp only [Option.bind_eq_bind, Option.bind_some, Option.map_some, withPast_pcb, Option.pure_def]
    congr 1
    unfold updateThroughput updateUtilization Past.next
    dsimp only [State.withPast]
    by_cases hl : k.statics.lastTotalTime < s.systemTicks
    · simp only [hl, if_true]
      by_cases ht : 1000 ≤ s.systemTicks - k.statics.lastTime
      · simp only [ht, if_true]
      · simp only [ht, if_false]
    · simp only [hl, if_false]
      by_cases ht : 1000 ≤ s.systemTicks - k.statics.lastTime
      · simp only [ht, if_true]
      · simp only [ht, if_false]

/-! ## The calls -/

/-- The result of a call in a state with another past. -/
theorem schedule_withPast : schedule H (s.withPast k) = (schedule H s).map (·.withPast k) := by
  have hput : ∀ s : State, putBack H (s.withPast k) = (putBack H s).withPast k := by
    intro s
    unfold putBack
    simp only [withPast_current]
    cases s.current with
    | none => rfl
    | some c =>
      refine ite_withPast rfl (ite_withPast ?_ rfl)
      exact add_withPast H (s.setState H c .ready) k
  have hdispatch : ∀ (s : State) p, dispatch H (s.withPast k) p = (dispatch H s p).withPast k := by
    intro s p
    unfold dispatch
    simp only [setState_withPast, setPcb_withPast, withPast_systemTicks, remove_withPast]
    rfl
  unfold schedule
  rw [getNextProcess_withPast]
  refine ite_eq_apply (Option.map (State.withPast · k)) rfl (ite_eq_apply _ rfl ?_)
  simp only [withPast_idle]
  cases (getNextProcess H s).2.or s.idle with
  | none => rfl
  | some p =>
    simp only [Option.bind_eq_bind, Option.bind_some, Option.pure_def, Option.map_some]
    rw [← hdispatch, ← hput]
    rfl

theorem createProcess_withPast (name : List UInt8) (type : ProcessType) (priority : UInt8)
    (flags : UInt32) : (createProcess H (s.withPast k) name type priority flags).1 =
      (createProcess H s name type priority flags).1.withPast k := by
  have hcount : ∀ u : State, State.withPast
      { u with stats := { u.stats with processesCreated := u.stats.processesCreated + 1 } } k =
      { u.withPast k with stats := { (u.withPast k).stats with
        processesCreated := (u.withPast k).stats.processesCreated + 1 } } := fun _ => rfl
  unfold createProcess
  simp only [withPast_table]
  cases H.pcbAlloc s.table with
  | none => rfl
  | some a =>
    dsimp only
    refine Eq.trans ?_ (hcount _).symm
    refine congrArg (fun u : State => ({ u with stats := { u.stats with
      processesCreated := u.stats.processesCreated + 1 } } : State)) ?_
    rw [← add_withPast]
    rfl

theorem terminateProcess_withPast (pid : UInt32) (exitCode : Int32) :
    (terminateProcess H (s.withPast k) pid exitCode).1 =
      (terminateProcess H s pid exitCode).1.withPast k := by
  unfold terminateProcess
  simp only [withPast_table]
  cases H.processTableFind s.table pid with
  | none => rfl
  | some p =>
    dsimp only
    by_cases hd : (s.pcb p).state = .terminated ∨ (s.pcb p).state = .zombie
    · simp [hd]
    · simp only [withPast_pcb, hd, if_false, setPcb_withPast, remove_withPast, setState_withPast,
        withPast_systemTicks]
      generalize State.setState H _ p .zombie = u
      have hu : (if u.current = some p then
            ({ u.withPast k with current := none, needReschedule := true } : State)
          else u.withPast k) =
          (if u.current = some p then { u with current := none, needReschedule := true }
          else u).withPast k := ite_withPast rfl rfl
      exact congrArg (fun u : State => ({ u with stats := { u.stats with
        processesTerminated := u.stats.processesTerminated + 1 } } : State)) hu

theorem reapProcess_withPast (pid : UInt32) :
    (reapProcess H (s.withPast k) pid).1 = (reapProcess H s pid).1.withPast k := by
  unfold reapProcess
  simp only [withPast_table]
  cases H.processTableFind s.table pid with
  | none => rfl
  | some p =>
    dsimp only
    by_cases hz : (s.pcb p).state ≠ .zombie
    · simp [hz]
    · simp only [withPast_pcb, hz, if_false]
      rfl

theorem yield_withPast : yield H (s.withPast k) = (yield H s).map (·.withPast k) := by
  unfold yield
  rw [← schedule_withPast]
  dsimp only
  apply congrArg (schedule H)
  simp only [withPast_current]
  cases s.current with
  | none => rfl
  | some c =>
    refine ite_withPast rfl ?_
    by_cases hf : (s.pcb c).flags &&& PROCESS_FLAG_SCHED_MLFQ = 0
    · simp only [withPast_pcb, hf, if_true]
      rfl
    · simp only [withPast_pcb, hf, if_false]
      rfl

theorem blockProcess_withPast : blockProcess H (s.withPast k) =
    (blockProcess H s).map fun r => (r.1.withPast k, r.2) := by
  unfold blockProcess
  simp only [withPast_current]
  cases s.current with
  | none => rfl
  | some c =>
    refine ite_eq_apply (Option.map fun r : State × Int32 => (r.1.withPast k, r.2)) rfl ?_
    rw [Option.map_map]
    have h := schedule_withPast H { s.setState H c .blocked with
      waitQueue := H.waitQueueEnqueue s.waitQueue c
      needReschedule := true } k
    refine (congrArg (Option.map fun s => (s, (0 : Int32))) h).trans ?_
    rw [Option.map_map]
    rfl

theorem sleepProcess_withPast (ticks : UInt32) : sleepProcess H (s.withPast k) ticks =
    (sleepProcess H s ticks).map fun r => (r.1.withPast k, r.2) := by
  unfold sleepProcess
  simp only [withPast_current]
  cases s.current with
  | none => rfl
  | some c =>
    refine ite_eq_apply (Option.map fun r : State × Int32 => (r.1.withPast k, r.2)) rfl ?_
    have h := schedule_withPast H { (s.setState H c .sleeping).setPcb c fun q =>
        { q with deadline := s.systemTicks + ticks } with
      sleepQueue := H.waitQueueEnqueue s.sleepQueue c
      needReschedule := true } k
    refine (congrArg (Option.map fun s => (s, (0 : Int32))) h).trans ?_
    rw [Option.map_map, Option.map_map]
    rfl

theorem wakeupProcess_withPast (pid : UInt32) :
    (wakeupProcess H (s.withPast k) pid).1 = (wakeupProcess H s pid).1.withPast k := by
  have hfind : ((s.withPast k).waitQueue.nodes.find? fun p => ((s.withPast k).pcb p).pid = pid) =
      s.waitQueue.nodes.find? fun p => (s.pcb p).pid = pid := rfl
  unfold wakeupProcess
  rw [hfind]
  cases s.waitQueue.nodes.find? fun p => (s.pcb p).pid = pid with
  | none => rfl
  | some p =>
    dsimp only
    rw [← add_withPast]
    rfl

theorem setPriority_withPast (pid : UInt32) (priority : UInt8) :
    (setPriority H (s.withPast k) pid priority).1 = (setPriority H s pid priority).1.withPast k := by
  unfold setPriority
  simp only [withPast_table]
  cases H.processTableFind s.table pid with
  | none => rfl
  | some p =>
    refine ite_withPast ?_ rfl
    rw [← add_withPast, ← remove_withPast]
    rfl

/-- **A call other than the tick does not look at the past.** -/
theorem step_withPast (hop : op ≠ .tick) :
    step H (s.withPast k) op = (step H s op).map (·.withPast k) := by
  cases op with
  | create name type priority flags => exact congrArg some (createProcess_withPast H s k ..)
  | terminate pid exitCode => exact congrArg some (terminateProcess_withPast H s k ..)
  | reap pid => exact congrArg some (reapProcess_withPast H s k pid)
  | schedule => exact schedule_withPast H s k
  | tick => exact absurd rfl hop
  | yield => exact yield_withPast H s k
  | block =>
    show (blockProcess H (s.withPast k)).map (·.1) = ((blockProcess H s).map (·.1)).map _
    rw [blockProcess_withPast, Option.map_map, Option.map_map]
    rfl
  | wakeup pid => exact congrArg some (wakeupProcess_withPast H s k pid)
  | sleep ticks =>
    show (sleepProcess H (s.withPast k) ticks).map (·.1) =
      ((sleepProcess H s ticks).map (·.1)).map _
    rw [sleepProcess_withPast, Option.map_map, Option.map_map]
    rfl
  | setPriority pid priority => exact congrArg some (setPriority_withPast H s k pid priority)

/-! ## The tick -/

theorem add_systemTicks : (addToReadyQueueInternal H s p).systemTicks = s.systemTicks := by
  unfold addToReadyQueueInternal
  split
  · rfl
  · split <;> rfl

theorem updateProcessTimes_systemTicks : (updateProcessTimes H s).systemTicks = s.systemTicks := by
  unfold updateProcessTimes
  split
  · rfl
  · dsimp only
    split
    · rfl
    · split
      · rfl
      · split <;> rfl

theorem checkSleepingProcesses_systemTicks :
    (checkSleepingProcesses H s).systemTicks = s.systemTicks := by
  have hloop : ∀ (l : List Slot) (s : State) kept,
      (checkSleepingLoop H s kept l).systemTicks = s.systemTicks := by
    intro l
    induction l with
    | nil => exact fun _ _ => rfl
    | cons p rest ih =>
      intro s kept
      unfold checkSleepingLoop
      split
      · rw [ih, add_systemTicks]
        rfl
      · exact ih s _
  exact hloop _ s []

/-- **The tick changes the past by `Past.next`**, and what else it does is the same for every
past. -/
theorem tickHandler_withPast : ∃ (r : Option State) (idleTime completed : UInt32), ∀ k,
    tickHandler H (s.withPast k) = r.map (·.withPast (k.next (s.systemTicks + 1) idleTime
      completed)) := by
  set u := checkSleepingProcesses H
    (updateProcessTimes H { s with systemTicks := s.systemTicks + 1 }) with hu
  have hticks : u.systemTicks = s.systemTicks + 1 := by
    rw [hu, checkSleepingProcesses_systemTicks, updateProcessTimes_systemTicks]
  have hbody : ∀ k, checkSleepingProcesses H
      (updateProcessTimes H { s.withPast k with systemTicks := (s.withPast k).systemTicks + 1 }) =
      u.withPast k := by
    intro k
    rw [hu, ← checkSleepingProcesses_withPast, ← updateProcessTimes_withPast]
    rfl
  cases hi : u.idle with
  | none =>
    refine ⟨none, 0, 0, fun k => ?_⟩
    unfold tickHandler
    dsimp only
    rw [hbody, updateSchedulerStats_withPast, hi]
    rfl
  | some i =>
    refine ⟨if u.config.enableMulticore ∧ u.config.loadBalanceInterval = 0 then none
      else if u.needReschedule ∨ ∃ c ∈ u.current, u.config.enablePreemption ∧
          (u.pcb c).timeSlice ≤ (u.pcb c).timeSliceUsed then
        schedule H { u with needReschedule := true }
      else some u, (u.pcb i).timeUsed, u.stats.processesCompleted, fun k => ?_⟩
    have hstats := updateSchedulerStats_withPast u k
    rw [hi, hticks] at hstats
    unfold tickHandler
    dsimp only
    rw [hbody, hstats]
    simp only [Option.bind_eq_bind, Option.bind_some, Option.map_some, Option.pure_def]
    generalize k.next (s.systemTicks + 1) (u.pcb i).timeUsed u.stats.processesCompleted = k'
    refine ite_eq_apply (Option.map (State.withPast · k')) rfl (ite_eq_apply _ ?_ rfl)
    exact schedule_withPast H { u with needReschedule := true } k'

end Functions

/-! ## Two lives -/

variable {s₁ s₂ t₁ t₂ : State} {k₁ k₂ : Statics} {config : Option Config}

/-- The two states differ in the past only. -/
def Alike (s₁ s₂ : State) : Prop := s₂ = s₁.withPast s₂.past

theorem alike_withPast (s : State) (k k' : Past) : Alike (s.withPast k) (s.withPast k') := rfl

theorem Alike.current (h : Alike s₁ s₂) : s₁.current = s₂.current := by
  rw [h]
  rfl

theorem Alike.systemTicks (h : Alike s₁ s₂) : s₁.systemTicks = s₂.systemTicks := by
  rw [h]
  rfl

/-- A statistic can differ only if it is one of the two. -/
theorem Alike.stats (h : Alike s₁ s₂) (hc : s₁.stats.cpuUtilization = s₂.stats.cpuUtilization)
    (ht : s₁.stats.throughput = s₂.stats.throughput) : s₁.stats = s₂.stats := by
  rw [h]
  show s₁.stats = { s₁.stats with
    cpuUtilization := s₂.stats.cpuUtilization, throughput := s₂.stats.throughput }
  rw [← hc, ← ht]

/-- Both calls of the timer make the same of what the two states share. -/
theorem Alike.tick (h : Alike s₁ s₂) (h₁ : Step H s₁ .tick t₁) (h₂ : Step H s₂ .tick t₂) :
    Alike t₁ t₂ ∧ ∃ idleTime completed,
      t₁.past = s₁.past.next (s₁.systemTicks + 1) idleTime completed ∧
      t₂.past = s₂.past.next (s₁.systemTicks + 1) idleTime completed := by
  obtain ⟨r, idleTime, completed, hr⟩ := tickHandler_withPast H s₁
  have he₁ := (hr s₁.past).symm.trans h₁
  have he₂ := (hr s₂.past).symm.trans ((congrArg (tickHandler H) h.symm).trans h₂)
  obtain ⟨t, rfl, rfl⟩ := Option.map_eq_some_iff.mp he₁
  cases he₂
  exact ⟨alike_withPast t _ _, idleTime, completed, rfl, rfl⟩

/-- **A step keeps two states alike.** -/
theorem Alike.step (h : Alike s₁ s₂) (h₁ : Step H s₁ op t₁) (h₂ : Step H s₂ op t₂) :
    Alike t₁ t₂ ∧ (op ≠ .tick → t₁.past = s₁.past ∧ t₂.past = s₂.past) := by
  by_cases hop : op = .tick
  · subst hop
    exact ⟨(h.tick h₁ h₂).1, fun hne => absurd rfl hne⟩
  · have hr := fun k => step_withPast H s₁ k hop
    have he₁ := (hr s₁.past).symm.trans h₁
    have he₂ := (hr s₂.past).symm.trans ((congrArg (Kernel.step H · op) h.symm).trans h₂)
    obtain ⟨t, ht, rfl⟩ := Option.map_eq_some_iff.mp he₁
    rw [ht] at he₂
    cases he₂
    exact ⟨alike_withPast t _ _, fun _ => ⟨rfl, rfl⟩⟩

/-- The condition on a tick and the states before it in two lives: a static variable is the same in
both when it is due to be read. -/
def Settled (s : State × State) : Op → Prop
  | .tick =>
    (s.1.statics.lastTotalTime < s.1.systemTicks + 1 ∨
        s.2.statics.lastTotalTime < s.2.systemTicks + 1 →
      s.1.statics.lastTotalTime = s.2.statics.lastTotalTime ∧
        s.1.statics.lastIdleTime = s.2.statics.lastIdleTime) ∧
    (1000 ≤ s.1.systemTicks + 1 - s.1.statics.lastTime ∨
        1000 ≤ s.2.systemTicks + 1 - s.2.statics.lastTime →
      s.1.statics.lastTime = s.2.statics.lastTime ∧
        s.1.statics.lastCompleted = s.2.statics.lastCompleted)
  | _ => True

instance (s : State × State) (op : Op) : Decidable (Settled s op) := by
  delta Settled
  exact match op with
  | .create _ _ _ _ | .terminate _ _ | .reap _ | .schedule | .tick | .yield | .block | .wakeup _
  | .sleep _ | .setPriority _ _ => inferInstance

/-- The two statistics after a tick. -/
theorem Past.next_readings (now idleTime completed : UInt32) (k : Past) :
    (k.next now idleTime completed).cpuUtilization =
      (if k.statics.lastTotalTime < now then
        if 0 < now - k.statics.lastTotalTime then
          100 - (idleTime - k.statics.lastIdleTime) * 100 / (now - k.statics.lastTotalTime)
        else k.cpuUtilization
      else k.cpuUtilization) ∧
    (k.next now idleTime completed).throughput =
      (if 1000 ≤ now - k.statics.lastTime then
        if 0 < now - k.statics.lastTime then
          (completed - k.statics.lastCompleted) * 1000 / (now - k.statics.lastTime)
        else k.throughput
      else k.throughput) := by
  unfold Past.next
  by_cases hl : k.statics.lastTotalTime < now
  · by_cases ht : 1000 ≤ now - k.statics.lastTime <;> simp [hl, ht]
  · by_cases ht : 1000 ≤ now - k.statics.lastTime <;> simp [hl, ht]

/-- **A tick that meets the condition** leaves the statistics the same in both lives. -/
theorem tick_settled (h : Alike s₁ s₂) (hstats : s₁.stats = s₂.stats)
    (hok : Settled (s₁, s₂) .tick) (h₁ : Step H s₁ .tick t₁) (h₂ : Step H s₂ .tick t₂) :
    t₁.stats = t₂.stats := by
  obtain ⟨halike, idleTime, completed, he₁, he₂⟩ := h.tick h₁ h₂
  have hcpu : s₁.past.cpuUtilization = s₂.past.cpuUtilization :=
    congrArg Stats.cpuUtilization hstats
  have hthroughput : s₁.past.throughput = s₂.past.throughput := congrArg Stats.throughput hstats
  obtain ⟨hidle, htime⟩ := hok
  rw [← h.systemTicks] at hidle htime
  obtain ⟨hc₁, ht₁⟩ := s₁.past.next_readings (s₁.systemTicks + 1) idleTime completed
  obtain ⟨hc₂, ht₂⟩ := s₂.past.next_readings (s₁.systemTicks + 1) idleTime completed
  rw [← he₁] at hc₁ ht₁
  rw [← he₂] at hc₂ ht₂
  apply halike.stats
  · refine hc₁.trans (Eq.trans ?_ hc₂.symm)
    by_cases hdue : s₁.past.statics.lastTotalTime < s₁.systemTicks + 1 ∨
        s₂.past.statics.lastTotalTime < s₁.systemTicks + 1
    · obtain ⟨htotal, hidle⟩ : s₁.past.statics.lastTotalTime = s₂.past.statics.lastTotalTime ∧
        s₁.past.statics.lastIdleTime = s₂.past.statics.lastIdleTime := hidle hdue
      rw [htotal, hidle, hcpu]
    · obtain ⟨hn₁, hn₂⟩ := not_or.mp hdue
      rw [if_neg hn₁, if_neg hn₂, hcpu]
  · refine ht₁.trans (Eq.trans ?_ ht₂.symm)
    by_cases hdue : 1000 ≤ s₁.systemTicks + 1 - s₁.past.statics.lastTime ∨
        1000 ≤ s₁.systemTicks + 1 - s₂.past.statics.lastTime
    · obtain ⟨hlast, hcompleted⟩ : s₁.past.statics.lastTime = s₂.past.statics.lastTime ∧
        s₁.past.statics.lastCompleted = s₂.past.statics.lastCompleted := htime hdue
      rw [hlast, hcompleted, hthroughput]
    · obtain ⟨hn₁, hn₂⟩ := not_or.mp hdue
      rw [if_neg hn₁, if_neg hn₂, hthroughput]

/-! ## Runs -/

/-- The static variables after some lives of the scheduler. -/
inductive Life (H : Helpers) : Statics → Prop where
  | boot : Life H ⟨0, 0, 0, 0⟩
  | init {k : Statics} {config : Option Config} {s : State} : Life H k →
      Reaches (Step H) anyAction (schedulerInit H k config) s → Life H s.statics

/-- `scheduler_init` makes the same state but for the past. -/
theorem schedulerInit_alike (H : Helpers) (k₁ k₂ : Statics) (config : Option Config) :
    Alike (schedulerInit H k₁ config) (schedulerInit H k₂ config) ∧
      (schedulerInit H k₁ config).stats = (schedulerInit H k₂ config).stats := by
  have hinit : ∀ k, initialState H k (config.getD defaultConfig) =
      (initialState H k₁ (config.getD defaultConfig)).withPast ⟨k, 0, 0⟩ := fun _ => rfl
  have hcreate : ∀ k, createProcess H (initialState H k (config.getD defaultConfig))
      [105, 100, 108, 101] .system 3 PROCESS_FLAG_CPU_BOUND =
      ((createProcess H (initialState H k₁ (config.getD defaultConfig))
        [105, 100, 108, 101] .system 3 PROCESS_FLAG_CPU_BOUND).1.withPast ⟨k, 0, 0⟩,
      (createProcess H (initialState H k₁ (config.getD defaultConfig))
        [105, 100, 108, 101] .system 3 PROCESS_FLAG_CPU_BOUND).2) := by
    intro k
    rw [hinit k]
    apply Prod.ext
    · exact createProcess_withPast ..
    · unfold createProcess
      simp only [withPast_table]
      split <;> rfl
  unfold schedulerInit
  dsimp only
  rw [hcreate k₁, hcreate k₂]
  dsimp only
  cases (createProcess H (initialState H k₁ (config.getD defaultConfig))
    [105, 100, 108, 101] .system 3 PROCESS_FLAG_CPU_BOUND).2 <;> exact ⟨rfl, rfl⟩

/-- In every two lives with the same calls, the states differ in the past only. -/
theorem lives_alike (hrun : Reaches (Both (Step H)) anyAction
    (schedulerInit H k₁ config, schedulerInit H k₂ config) (s₁, s₂)) : Alike s₁ s₂ :=
  hrun.related (schedulerInit_alike H k₁ k₂ config).1 fun _ _ _ _ _ h _ h₁ h₂ => (h.step h₁ h₂).1

/-- **The same calls after `scheduler_init` give the same statistics and the same current process**,
whatever the static variables were, as long as none that differs is due to be read. -/
theorem init_forgets (hrun : Reaches (Both (Step H)) Settled
    (schedulerInit H k₁ config, schedulerInit H k₂ config) (s₁, s₂)) :
    s₁.stats = s₂.stats ∧ s₁.current = s₂.current := by
  have hs : Alike s₁ s₂ ∧ s₁.stats = s₂.stats := by
    apply hrun.related (Q := fun s₁ s₂ => Alike s₁ s₂ ∧ s₁.stats = s₂.stats)
      (schedulerInit_alike H k₁ k₂ config)
    intro s₁ s₂ op t₁ t₂ hs hok h₁ h₂
    obtain ⟨halike, hpast⟩ := hs.1.step h₁ h₂
    refine ⟨halike, ?_⟩
    by_cases hop : op = .tick
    · subst hop
      exact tick_settled hs.1 hs.2 hok h₁ h₂
    · obtain ⟨he₁, he₂⟩ := hpast hop
      apply halike.stats
      · exact (congrArg Past.cpuUtilization he₁).trans
          ((congrArg Stats.cpuUtilization hs.2).trans (congrArg Past.cpuUtilization he₂).symm)
      · exact (congrArg Past.throughput he₁).trans
          ((congrArg Stats.throughput hs.2).trans (congrArg Past.throughput he₂).symm)
  exact ⟨hs.2, hs.1.current⟩

/-- Three ticks after two lives of which one was longer by four ticks. -/
theorem init_forgets_run : ∃ s₁ s₂, Reaches (Both (Step listHelpers)) Settled
    (schedulerInit listHelpers ⟨0, 5, 3, 1⟩ none, schedulerInit listHelpers ⟨0, 9, 2, 1⟩ none)
      (s₁, s₂) ∧ s₁.systemTicks = 3 ∧ s₁.stats = s₂.stats ∧ s₁.current = s₂.current := by
  have hx : (exec (stepBoth (step listHelpers)) (fun s op => decide (Settled s op))
      (schedulerInit listHelpers ⟨0, 5, 3, 1⟩ none, schedulerInit listHelpers ⟨0, 9, 2, 1⟩ none)
      [.create [] .user 0 0, .tick, .yield, .tick, .terminate 2 0, .reap 2, .tick]).map
      (fun s => s.1.systemTicks) = some 3 := by
    decide +kernel
  obtain ⟨⟨s₁, s₂⟩, hs, hticks⟩ := Option.map_eq_some_iff.mp hx
  have hrun : Reaches (Both (Step listHelpers)) Settled _ (s₁, s₂) :=
    reaches_of_exec (fun _ _ h => of_decide_eq_true h)
      (fun _ _ _ h => both_of_stepBoth (fun _ _ _ h => h) h) hs
  exact ⟨s₁, s₂, hrun, hticks, init_forgets hrun⟩

/-- After a life of one tick, the first tick of the next life computes no utilisation. -/
theorem init_remembers : ¬ ∀ (H : Helpers) (k₁ k₂ : Statics) (config : Option Config)
    (s₁ s₂ : State), H.Complete → Life H k₁ → Life H k₂ → Reaches (Both (Step H)) anyAction
      (schedulerInit H k₁ config, schedulerInit H k₂ config) (s₁, s₂) →
    s₁.stats = s₂.stats ∧ s₁.current = s₂.current := by
  intro hall
  have hlife : (step listHelpers (schedulerInit listHelpers ⟨0, 0, 0, 0⟩ none) .tick).map
      State.statics = some ⟨0, 1, 0, 0⟩ := by
    decide +kernel
  obtain ⟨s, hs, hstatics⟩ := Option.map_eq_some_iff.mp hlife
  have h₂ : Life listHelpers ⟨0, 1, 0, 0⟩ :=
    hstatics ▸ Life.boot.init (.step .refl trivial hs)
  have hx : (stepBoth (step listHelpers) (schedulerInit listHelpers ⟨0, 0, 0, 0⟩ none,
      schedulerInit listHelpers ⟨0, 1, 0, 0⟩ none) .tick).map
      (fun s => (s.1.stats.cpuUtilization, s.2.stats.cpuUtilization)) = some (100, 0) := by
    decide +kernel
  obtain ⟨⟨s₁, s₂⟩, hboth, hobs⟩ := Option.map_eq_some_iff.mp hx
  simp only [Prod.mk.injEq] at hobs
  obtain ⟨hstats, -⟩ := hall listHelpers _ _ none s₁ s₂ listHelpers_complete .boot h₂
    (.step .refl trivial (both_of_stepBoth (fun _ _ _ h => h) hboth))
  have heq := congrArg Stats.cpuUtilization hstats
  rw [hobs.1, hobs.2] at heq
  cases heq

end OSCompas.Kernel
