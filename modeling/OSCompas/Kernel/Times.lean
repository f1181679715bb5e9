import OSCompas.Kernel.Work

/-!
# What the calls write of the times

`time_used`, `time_created` and `time_terminated` of a process, the tick counter, the totals over
the reaped processes and the CPU utilisation: which call writes which of them.

* `Kept` — a step that writes none, makes no zombie and does not dispatch one;
* `Born`, `Ended`, `Reaped` — the writes of a creation, a termination and a reap;
* `Ticked` — the writes of a tick up to its statistics;
* `Written` — what each call writes.

Principal results: `step_times` (every call is one of these) and `schedulerInit_started`.
-/

set_option autoImplicit false

namespace OSCompas.Kernel

open Function Runs

/-- The totals over the reaped processes, and the CPU utilisation. -/
def Stats.figures (st : Stats) : UInt32 × UInt32 × UInt32 :=
  (st.processesCompleted, st.totalRuntime, st.cpuUtilization)

/-- A step that leaves the times and the figures alone. -/
structure Kept (s s' : State) : Prop where
  idle : s'.idle = s.idle
  ticks : s'.systemTicks = s.systemTicks
  statics : s'.statics = s.statics
  figures : s'.stats.figures = s.stats.figures
  allocated : s'.table.allocated = s.table.allocated
  times : ∀ p, (s'.pcb p).times = (s.pcb p).times
  zombie : ∀ p, (s'.pcb p).state = .zombie → (s.pcb p).state = .zombie
  resting : ∀ p, (s'.pcb p).state = .zombie → s'.current = some p → s.current = some p

/-- A step that writes the PCB of `p` and no other. -/
structure Elsewhere (p : Slot) (s s' : State) : Prop where
  idle : s'.idle = s.idle
  ticks : s'.systemTicks = s.systemTicks
  statics : s'.statics = s.statics
  current : ∀ q, s'.current = some q → s.current = some q
  allocated : ∀ q, q ≠ p → s'.table.allocated q = s.table.allocated q
  pcb : ∀ q, q ≠ p → s'.pcb q = s.pcb q

/-- The process in the slot `p`, which was free, is new. -/
structure Born (p : Slot) (s s' : State) : Prop extends Elsewhere p s s' where
  figures : s'.stats.figures = s.stats.figures
  free : s.table.allocated p = false
  used : (s'.pcb p).timeUsed = 0
  created : (s'.pcb p).timeCreated = s.systemTicks
  alive : (s'.pcb p).state ≠ .zombie

/-- The process in the slot `p` has become a zombie. -/
structure Ended (p : Slot) (s s' : State) : Prop extends Elsewhere p s s' where
  figures : s'.stats.figures = s.stats.figures
  same : s'.table.allocated p = s.table.allocated p
  times : (s'.pcb p).times = ((s.pcb p).timeUsed, (s.pcb p).timeCreated, s.systemTicks)
  rests : s'.current ≠ some p

/-- The zombie in the slot `p` is counted and released. -/
structure Reaped (p : Slot) (s s' : State) : Prop extends Elsewhere p s s' where
  zombie : (s.pcb p).state = .zombie
  held : s.table.allocated p = true
  freed : s'.table.allocated p = false
  used : (s'.pcb p).timeUsed = (s.pcb p).timeUsed ∨ (s'.pcb p).timeUsed = 0
  figures : s'.stats.figures = (s.stats.processesCompleted + 1,
    s.stats.totalRuntime + (s.pcb p).timeUsed, s.stats.cpuUtilization)
  average : s'.stats.avgTurnaroundTime = if 0 < s'.stats.processesCompleted then
    s'.stats.totalRuntime / s'.stats.processesCompleted else s.stats.avgTurnaroundTime
  waited : s'.stats.totalWaitTime = s.stats.totalWaitTime +
    ((s.pcb p).timeTerminated - (s.pcb p).timeCreated - (s.pcb p).timeUsed)

/-- The tick is counted, and charged to the current process unless it is the idle one. -/
structure Ticked (s s' : State) : Prop where
  idle : s'.idle = s.idle
  ticks : s'.systemTicks = s.systemTicks + 1
  statics : s'.statics = s.statics
  figures : s'.stats.figures = s.stats.figures
  allocated : s'.table.allocated = s.table.allocated
  times : ∀ p, (s'.pcb p).times = if s.current = some p ∧ s.idle ≠ some p then
    ((s.pcb p).timeUsed + 1, (s.pcb p).timeCreated, (s.pcb p).timeTerminated)
    else (s.pcb p).times
  zombie : ∀ p, (s'.pcb p).state = .zombie → (s.pcb p).state = .zombie
  resting : ∀ p, (s'.pcb p).state = .zombie → s'.current = some p → s.current = some p

variable {H : Helpers} {s s' s'' t : State} {p c x : Slot} {f : Pcb → Pcb} {op : Op}

/-! ## Steps that write nothing -/

theorem Kept.refl (s : State) : Kept s s := by
  constructor <;> intros <;> first | rfl | assumption

theorem Kept.trans (h : Kept s s') (h' : Kept s' s'') : Kept s s'' where
  idle := h'.idle.trans h.idle
  ticks := h'.ticks.trans h.ticks
  statics := h'.statics.trans h.statics
  figures := h'.figures.trans h.figures
  allocated := h'.allocated.trans h.allocated
  times p := (h'.times p).trans (h.times p)
  zombie p hp := h.zombie p (h'.zombie p hp)
  resting p hp hc := h.resting p (h'.zombie p hp) (h'.resting p hp hc)

/-- A PCB gets other fields, and is no zombie if it was none. -/
theorem Kept.setPcb (s : State) (p : Slot) (hf : (f (s.pcb p)).times = (s.pcb p).times)
    (hz : (f (s.pcb p)).state = .zombie → (s.pcb p).state = .zombie) : Kept s (s.setPcb p f) := by
  refine ⟨rfl, rfl, rfl, rfl, rfl, fun q => ?_, fun q hq => ?_, fun q _ hc => hc⟩
  · by_cases hqp : q = p
    · subst hqp
      rw [setPcb_self, hf]
    · rw [setPcb_of_ne _ _ hqp]
  · by_cases hqp : q = p
    · subst hqp
      rw [setPcb_self] at hq
      exact hz hq
    · rwa [setPcb_of_ne _ _ hqp] at hq

theorem Kept.setState (hH : H.KeepsTimes) (s : State) (p : Slot) {st : ProcessState}
    (hst : st ≠ .zombie) : Kept s (s.setState H p st) := by
  refine .setPcb s p (hH.pcbSetState_times _ _) fun hz => ?_
  rw [hH.pcbSetState_state] at hz
  exact absurd hz hst

theorem Kept.add (H : Helpers) (s : State) (p : Slot) :
    Kept s (addToReadyQueueInternal H s p) := by
  unfold addToReadyQueueInternal
  split
  · exact .refl s
  · split
    · exact ⟨rfl, rfl, rfl, rfl, rfl, fun _ => rfl, fun _ => id, fun _ _ => id⟩
    · exact ⟨rfl, rfl, rfl, rfl, rfl, fun _ => rfl, fun _ => id, fun _ _ => id⟩
    · exact ⟨rfl, rfl, rfl, rfl, rfl, fun _ => rfl, fun _ => id, fun _ _ => id⟩
    · exact .refl s

theorem Kept.remove (H : Helpers) (s : State) (p : Slot) :
    Kept s (removeFromReadyQueueInternal H s p) := by
  obtain ⟨l, hl⟩ := remove_eq (H := H) s p
  rw [hl]
  exact ⟨rfl, rfl, rfl, rfl, rfl, fun _ => rfl, fun _ => id, fun _ _ => id⟩

theorem getNextProcess_kept (H : Helpers) (s : State) : Kept s (getNextProcess H s).1.switched := by
  unfold getNextProcess
  split
  · exact ⟨rfl, rfl, rfl, rfl, rfl, fun _ => rfl, fun _ => id, fun _ _ => id⟩
  · exact ⟨rfl, rfl, rfl, rfl, rfl, fun _ => rfl, fun _ => id, fun _ _ => id⟩
  · exact ⟨rfl, rfl, rfl, rfl, rfl, fun _ => rfl, fun _ => id, fun _ _ => id⟩
  · exact ⟨rfl, rfl, rfl, rfl, rfl, fun _ => rfl, fun _ => id, fun _ _ => id⟩

/-- One more context switch is no time. -/
theorem Kept.of_switched (h : Kept s t.switched) : Kept s t :=
  ⟨h.idle, h.ticks, h.statics, h.figures, h.allocated, h.times, h.zombie, h.resting⟩

theorem putBack_kept (hH : H.KeepsTimes) (s : State) : Kept s (putBack H s) := by
  unfold putBack
  split
  · exact .refl s
  · split
    · exact .refl s
    · split
      · exact (Kept.setState hH s _ (by simp)).trans (.add H _ _)
      · exact .refl s

theorem dispatch_kept (hH : H.KeepsTimes) (s : State) (x : Slot) : Kept s (dispatch H s x) := by
  have h1 : Kept s (s.setState H x .running) := .setState hH s x (by simp)
  have h2 := h1.trans (.setPcb _ x (f := fun q => { q with
    timeStarted := s.systemTicks, timeSliceUsed := 0 }) rfl fun h => h)
  have h3 := h2.trans (.remove H _ x)
  -- the new process runs, so it is no zombie
  have hx : ((dispatch H s x).pcb x).state = .running := by
    rw [dispatch_state hH.toDocumented, if_pos rfl]
  refine ⟨h3.idle, h3.ticks, h3.statics, h3.figures, h3.allocated, h3.times, h3.zombie, ?_⟩
  intro p hp hc
  obtain rfl : x = p := Option.some.inj hc
  rw [hx] at hp
  cases hp

theorem schedule_kept (hH : H.KeepsTimes) (h : schedule H s = some s') : Kept s s' := by
  have h1 := getNextProcess_kept H s
  obtain ⟨-, rfl⟩ | ⟨-, rfl⟩ | ⟨x, -, -, rfl⟩ := schedule_cases h
  · exact .refl s'
  · exact h1.of_switched
  · exact (h1.trans (putBack_kept hH _)).trans (dispatch_kept hH _ x)

/-- Asking for a switch, with other queues. -/
theorem Kept.reschedule {w w' : WaitQueue} {b : Bool} (hH : H.KeepsTimes) (h : Kept s s')
    (hs : schedule H { s' with waitQueue := w, sleepQueue := w', needReschedule := b } =
      some s'') : Kept s s'' := by
  have h1 : Kept s { s' with waitQueue := w, sleepQueue := w', needReschedule := b } :=
    ⟨h.idle, h.ticks, h.statics, h.figures, h.allocated, h.times, h.zombie, h.resting⟩
  exact h1.trans (schedule_kept hH hs)

theorem yield_kept (hH : H.KeepsTimes) (h : yield H s = some s') : Kept s s' := by
  obtain ⟨u, hs, hu⟩ := yield_cases h
  rcases hu with rfl | rfl | ⟨c, rfl⟩
  · exact schedule_kept hH hs
  · exact (Kept.refl s).reschedule hH hs
  · have h1 : Kept s (s.setPcb c fun q => { q with timeInQueue := 0 }) :=
      .setPcb s c rfl fun h => h
    exact h1.reschedule hH hs

theorem blockProcess_kept (hH : H.KeepsTimes) {r : Int32}
    (h : blockProcess H s = some (s', r)) : Kept s s' := by
  obtain rfl | ⟨c, -, -, hs⟩ := blockProcess_cases h
  · exact .refl s'
  · exact (Kept.setState hH s c (by simp)).reschedule hH hs

theorem sleepProcess_kept (hH : H.KeepsTimes) {ticks : UInt32} {r : Int32}
    (h : sleepProcess H s ticks = some (s', r)) : Kept s s' := by
  obtain ⟨rfl, -⟩ | ⟨c, -, -, hs⟩ := sleepProcess_cases h
  · exact .refl s'
  · have h1 : Kept s (s.setState H c .sleeping) := .setState hH s c (by simp)
    have h2 := h1.trans (.setPcb _ c (f := fun q => { q with
      deadline := s.systemTicks + ticks }) rfl fun h => h)
    exact h2.reschedule hH hs

/-- Made ready and queued again, with another wait or sleep queue. -/
theorem Kept.wake (hH : H.KeepsTimes) (s : State) (w w' : WaitQueue) (p : Slot) :
    Kept s (addToReadyQueueInternal H
      (State.setState H { s with waitQueue := w, sleepQueue := w' } p .ready) p) := by
  have h1 : Kept s { s with waitQueue := w, sleepQueue := w' } :=
    ⟨rfl, rfl, rfl, rfl, rfl, fun _ => rfl, fun _ => id, fun _ _ => id⟩
  exact (h1.trans (.setState hH _ p (by simp))).trans (.add H _ p)

theorem wakeupProcess_kept (hH : H.KeepsTimes) (s : State) (pid : UInt32) :
    Kept s (wakeupProcess H s pid).1 := by
  unfold wakeupProcess
  split
  · exact .refl s
  · exact .wake hH s _ s.sleepQueue _

theorem setPriority_kept (hH : H.KeepsTimes) (s : State) (pid : UInt32) (priority : UInt8) :
    Kept s (setPriority H s pid priority).1 := by
  unfold setPriority
  split
  · exact .refl s
  · rename_i p hp
    dsimp only
    generalize (if 4 ≤ priority then 3 else priority) = level
    have h1 : Kept s (s.setPcb p fun q => H.pcbSetPriority q level) := by
      refine .setPcb s p (hH.pcbSetPriority_times _ _) fun hz => ?_
      rwa [hH.pcbSetPriority_state] at hz
    have h2 := h1.trans (.setPcb _ p (f := fun q => { q with
      timeSlice := H.calculateTimeSlice level s.config.timeQuantum }) rfl fun h => h)
    split
    · exact (h2.trans (.remove H _ p)).trans (.add H _ p)
    · exact h2

/-! ## The timer -/

theorem checkSleepingLoop_kept (hH : H.KeepsTimes) (s : State) (kept l : List Slot) :
    Kept s (checkSleepingLoop H s kept l) := by
  induction l generalizing s kept with
  | nil => exact .refl s
  | cons p rest ih =>
    unfold checkSleepingLoop
    split
    · exact (Kept.wake hH s s.waitQueue _ p).trans (ih _ _)
    · exact ih s _

/-- The charge of a process that runs. -/
def Pcb.charge (q : Pcb) : Pcb :=
  { q with
    timeUsed := q.timeUsed + 1
    timeSliceUsed := q.timeSliceUsed + 1
    vruntime := q.vruntime + 1 }

theorem adjust_kept (hH : H.KeepsTimes) (s : State) (c : Slot) :
    let r := H.mlfqAdjustPriority s.mlfq c (s.pcb c) true
    Kept s (State.setPcb { s with mlfq := r.1 } c fun _ => r.2) := by
  intro r
  have h1 : Kept s { s with mlfq := r.1 } :=
    ⟨rfl, rfl, rfl, rfl, rfl, fun _ => rfl, fun _ => id, fun _ _ => id⟩
  refine h1.trans (.setPcb _ c (hH.mlfqAdjustPriority_times _ _ _ _) fun hz => ?_)
  exact (hH.mlfqAdjustPriority_state s.mlfq c (s.pcb c) true).symm.trans hz

/-- After the charge `update_process_times` writes no time. -/
theorem updateProcessTimes_kept (hH : H.KeepsTimes) (hc : s.current = some c)
    (hci : s.idle ≠ some c) : Kept (s.setPcb c Pcb.charge) (updateProcessTimes H s) := by
  unfold updateProcessTimes
  rw [hc]
  dsimp only
  rw [if_neg hci]
  split
  · exact .refl _
  · have h1 := Kept.setPcb (s.setPcb c Pcb.charge) c (f := fun q =>
      { q with timeInQueue := q.timeInQueue + 1 }) rfl fun h => h
    split
    · exact h1
    · exact h1.trans (adjust_kept hH _ c)

/-- The times of a process after the charge of the process `c`. -/
theorem charge_times (s : State) (c p : Slot) : ((s.setPcb c Pcb.charge).pcb p).times =
    if c = p then ((s.pcb p).timeUsed + 1, (s.pcb p).timeCreated, (s.pcb p).timeTerminated)
    else (s.pcb p).times := by
  by_cases hcp : c = p
  · subst hcp
    rw [setPcb_self, if_pos rfl]
    rfl
  · rw [setPcb_of_ne _ _ (Ne.symm hcp), if_neg hcp]

/-- **The charge of a tick.** -/
theorem updateProcessTimes_ticked (hH : H.KeepsTimes) (s : State) :
    Ticked s (updateProcessTimes H { s with systemTicks := s.systemTicks + 1 }) := by
  by_cases hrun : ∃ c, s.current = some c ∧ s.idle ≠ some c
  · obtain ⟨c, hc, hci⟩ := hrun
    have hk := updateProcessTimes_kept (s := { s with systemTicks := s.systemTicks + 1 })
      hH hc hci
    have hz : ∀ p, ((State.setPcb { s with systemTicks := s.systemTicks + 1 } c
        Pcb.charge).pcb p).state = (s.pcb p).state := by
      intro p
      by_cases hpc : p = c
      · subst hpc
        rw [setPcb_self]
        rfl
      · rw [setPcb_of_ne _ _ hpc]
        rfl
    refine ⟨hk.idle, hk.ticks, hk.statics, hk.figures, hk.allocated, fun p => ?_, fun p hp => ?_,
      hk.resting⟩
    · rw [hk.times, charge_times, hc]
      by_cases hcp : c = p
      · subst hcp
        rw [if_pos rfl, if_pos ⟨rfl, hci⟩]
        rfl
      · rw [if_neg hcp, if_neg fun h => hcp (Option.some.inj h.1)]
        rfl
    · rw [← hz]
      exact hk.zombie p hp
  · have he : updateProcessTimes H { s with systemTicks := s.systemTicks + 1 } =
        { s with systemTicks := s.systemTicks + 1 } := by
      unfold updateProcessTimes
      split
      · rfl
      · rename_i c hc
        split
        · rfl
        · rename_i hci
          exact absurd ⟨c, hc, hci⟩ hrun
    rw [he]
    refine ⟨rfl, rfl, rfl, rfl, rfl, fun p => ?_, fun _ => id, fun _ _ => id⟩
    rw [if_neg fun h => hrun ⟨p, h⟩]
    rfl

theorem Ticked.kept (h : Ticked s s') (h' : Kept s' s'') : Ticked s s'' where
  idle := h'.idle.trans h.idle
  ticks := h'.ticks.trans h.ticks
  statics := h'.statics.trans h.statics
  figures := h'.figures.trans h.figures
  allocated := h'.allocated.trans h.allocated
  times p := (h'.times p).trans (h.times p)
  zombie p hp := h.zombie p (h'.zombie p hp)
  resting p hp hc := h.resting p (h'.zombie p hp) (h'.resting p hp hc)

/-- **A tick**: the charge, the statistics, and perhaps a switch. -/
theorem tickHandler_times (hH : H.KeepsTimes) (h : tickHandler H s = some s') : ∃ v u,
    Ticked s v ∧ updateSchedulerStats v = some u ∧ Kept u s' := by
  obtain ⟨u, hu, h⟩ := tickHandler_cases h
  refine ⟨_, u, (updateProcessTimes_ticked hH s).kept (checkSleepingLoop_kept hH _ _ _), hu, ?_⟩
  rcases h with ⟨-, h⟩ | ⟨-, rfl⟩
  · exact (Kept.refl u).reschedule hH h
  · exact .refl _

/-- The throughput and its two static variables. -/
theorem updateThroughput_eq (s : State) : ∃ n c l, updateThroughput s =
    { s with
      stats := { s.stats with throughput := n }
      statics := { s.statics with lastCompleted := c, lastTime := l } } := by
  unfold updateThroughput
  dsimp only
  split
  · exact ⟨_, _, _, rfl⟩
  · exact ⟨s.stats.throughput, s.statics.lastCompleted, s.statics.lastTime, rfl⟩

/-- The utilisation and its two static variables. -/
theorem updateUtilization_eq (s : State) (n : UInt32) : ∃ c l k, updateUtilization s n =
    { s with
      stats := { s.stats with cpuUtilization := c }
      statics := { s.statics with lastIdleTime := l, lastTotalTime := k } } := by
  unfold updateUtilization
  split
  · exact ⟨_, _, _, rfl⟩
  · exact ⟨s.stats.cpuUtilization, s.statics.lastIdleTime, s.statics.lastTotalTime, rfl⟩

/-! ## Creation, termination and release -/

theorem Pcb.mark_times (q : Pcb) (type : SchedulerType) (priority : UInt8) :
    (q.mark type priority).times = q.times := by
  unfold Pcb.mark
  split <;> rfl

/-- **A creation** fails, or the process is new in a slot that was free. -/
theorem createProcess_born (hH : H.KeepsTimes) (s : State) (name : List UInt8)
    (type : ProcessType) (priority : UInt8) (flags : UInt32) :
    createProcess H s name type priority flags = (s, none) ∨
      ∃ p, (createProcess H s name type priority flags).2 = some p ∧
        Born p s (createProcess H s name type priority flags).1 := by
  unfold createProcess
  cases halloc : H.pcbAlloc s.table with
  | none => exact .inl rfl
  | some a =>
    obtain ⟨p, table⟩ := a
    obtain ⟨hfree, hallocated, hother⟩ := hH.pcbAlloc_free _ _ _ halloc
    right
    dsimp only
    -- everything written before the process is queued is in its own slot
    set t : State := State.setState H (State.setPcb (State.setPcb (State.setPcb _ p _) p _) p _)
      p .ready with ht
    have hpcb : ∀ q, q ≠ p → t.pcb q = s.pcb q := fun q hq => by
      rw [ht, State.setState, setPcb_of_ne _ _ hq, setPcb_of_ne _ _ hq, setPcb_of_ne _ _ hq,
        setPcb_of_ne _ _ hq]
      exact hother q hq
    have hbits : t.table.allocated = update s.table.allocated p true := hallocated
    have htimes : (t.pcb p).times = (0, s.systemTicks, (t.pcb p).timeTerminated) := by
      refine Prod.ext ?_ (Prod.ext ?_ rfl)
      · show (t.pcb p).times.1 = 0
        rw [ht, State.setState, setPcb_self, hH.pcbSetState_times, setPcb_self, Pcb.mark_times,
          setPcb_self]
        exact (congrArg Pcb.timeUsed (setPcb_self _ p _)).trans (hH.pcbInit_unused _ _ _ _ _)
      · show (t.pcb p).times.2.1 = s.systemTicks
        rw [ht, State.setState, setPcb_self, hH.pcbSetState_times, setPcb_self, Pcb.mark_times,
          setPcb_self]
        rfl
    have hready : (t.pcb p).state = .ready := by
      rw [ht, State.setState, setPcb_self, hH.pcbSetState_state]
    obtain ⟨m, l, hadd⟩ := add_eq H t p
    rw [hadd]
    refine ⟨p, rfl, ⟨rfl, rfl, rfl, fun _ => id, fun q hq => ?_, hpcb⟩, rfl, hfree,
      congrArg (·.1) htimes, congrArg (·.2.1) htimes, ?_⟩
    · show t.table.allocated q = s.table.allocated q
      rw [hbits, update_of_ne hq]
    · show (t.pcb p).state ≠ .zombie
      rw [hready]
      simp

/-- **A termination** fails, or the process has ended. -/
theorem terminateProcess_ended (hH : H.KeepsTimes) (s : State) (pid : UInt32) (exitCode : Int32) :
    (terminateProcess H s pid exitCode).1 = s ∨
      ∃ p, Ended p s (terminateProcess H s pid exitCode).1 := by
  unfold terminateProcess
  split
  · exact .inl rfl
  · rename_i p hp
    split
    · exact .inl rfl
    · refine .inr ⟨p, ?_⟩
      dsimp only
      obtain ⟨l, hl⟩ := remove_eq (H := H) (s.setPcb p fun q => { q with exitCode := exitCode }) p
      rw [hl]
      set t : State := State.setState H (State.setPcb _ p _) p .zombie with ht
      have hpcb : ∀ q, q ≠ p → t.pcb q = s.pcb q := fun q hq => by
        rw [ht, State.setState, setPcb_of_ne _ _ hq, setPcb_of_ne _ _ hq]
        exact setPcb_of_ne s (fun q => { q with exitCode := exitCode }) hq
      have htimes : (t.pcb p).times =
          ((s.pcb p).timeUsed, (s.pcb p).timeCreated, s.systemTicks) := by
        rw [ht, State.setState, setPcb_self, hH.pcbSetState_times, setPcb_self]
        have hself : State.pcb { s.setPcb p fun q => { q with exitCode := exitCode } with
            readyQueue := l } p = { s.pcb p with exitCode := exitCode } :=
          setPcb_self s p fun q => { q with exitCode := exitCode }
        rw [hself]
        rfl
      split
      · exact ⟨⟨rfl, rfl, rfl, by simp, fun _ _ => rfl, hpcb⟩, rfl, rfl, htimes, by simp⟩
      · rename_i hc
        exact ⟨⟨rfl, rfl, rfl, fun _ => id, fun _ _ => rfl, hpcb⟩, rfl, rfl, htimes, hc⟩

/-- **A reap** fails, or a zombie is counted and released. -/
theorem reapProcess_reaped (hH : H.KeepsTimes) (s : State) (pid : UInt32) :
    reapProcess H s pid = (s, -1) ∨ (reapProcess H s pid).2 = 0 ∧
      ∃ p, H.processTableFind s.table pid = some p ∧ Reaped p s (reapProcess H s pid).1 := by
  unfold reapProcess
  cases hfind : H.processTableFind s.table pid with
  | none => exact .inl rfl
  | some p =>
    dsimp only
    split
    · exact .inl rfl
    · rename_i hz
      refine .inr ⟨rfl, p, rfl, ?_⟩
      rw [not_not] at hz
      set t : State := State.setState H _ p .terminated with ht
      have hpcb : ∀ q, q ≠ p → t.pcb q = s.pcb q := fun q hq => by
        rw [ht, State.setState, setPcb_of_ne _ _ hq]
        rfl
      have hused : (t.pcb p).times = (s.pcb p).times := by
        rw [ht, State.setState, setPcb_self]
        exact hH.pcbSetState_times _ _
      obtain ⟨hfreed, -, -, hother⟩ := hH.pcbFree_release t.table p
      refine ⟨⟨rfl, rfl, rfl, fun _ => id, fun q hq => ?_, fun q hq => ?_⟩, hz,
        (hH.processTableFind_allocated _ _ _ hfind).1, ?_, ?_, rfl, ?_, rfl⟩
      · show (H.pcbFree t.table p).allocated q = s.table.allocated q
        rw [hfreed, update_of_ne hq]
        rfl
      · exact (hother q hq).trans (hpcb q hq)
      · show (H.pcbFree t.table p).allocated p = false
        rw [hfreed, update_self]
      · rcases hH.pcbFree_times t.table p with h | h
        · exact .inl (congrArg (·.1) (h.trans hused))
        · exact .inr (congrArg (·.1) h)
      · rfl

/-- What a call writes of the times. -/
def Written (H : Helpers) (s : State) (op : Op) (s' : State) : Prop :=
  match op with
  | .create .. => s' = s ∨ ∃ p, Born p s s'
  | .terminate .. => s' = s ∨ ∃ p, Ended p s s'
  | .reap pid => s' = s ∧ (reapProcess H s pid).2 ≠ 0 ∨ (reapProcess H s pid).2 = 0 ∧
      ∃ p, H.processTableFind s.table pid = some p ∧ Reaped p s s'
  | .tick => ∃ v u, Ticked s v ∧ updateSchedulerStats v = some u ∧ Kept u s'
  | _ => Kept s s'

/-- **Every call is one of these.** -/
theorem step_times (hH : H.KeepsTimes) (h : Step H s op s') : Written H s op s' := by
  cases op with
  | create name type priority flags =>
    cases h
    rcases createProcess_born hH s name type priority flags with he | ⟨p, -, hb⟩
    · exact .inl (congrArg (·.1) he)
    · exact .inr ⟨p, hb⟩
  | terminate pid exitCode =>
    cases h
    exact terminateProcess_ended hH s pid exitCode
  | reap pid =>
    cases h
    rcases reapProcess_reaped hH s pid with he | hr
    · left
      rw [he]
      exact ⟨rfl, (by decide : (-1 : Int32) ≠ 0)⟩
    · exact .inr hr
  | schedule => exact schedule_kept hH h
  | tick => exact tickHandler_times hH h
  | yield => exact yield_kept hH h
  | block =>
    obtain ⟨⟨t, r⟩, ht, rfl⟩ := Option.map_eq_some_iff.mp h
    exact blockProcess_kept hH ht
  | wakeup pid =>
    cases h
    exact wakeupProcess_kept hH s pid
  | sleep ticks =>
    obtain ⟨⟨t, r⟩, ht, rfl⟩ := Option.map_eq_some_iff.mp h
    exact sleepProcess_kept hH ht
  | setPriority pid priority =>
    cases h
    exact setPriority_kept hH s pid priority

/-! ## Initialisation -/

/-- **`scheduler_init`** starts all clocks at 0; the idle process runs, if there is one. -/
structure Started (statics : Statics) (s : State) : Prop where
  ticks : s.systemTicks = 0
  statics : s.statics = statics
  figures : s.stats.figures = (0, 0, 0)
  processes : ∀ p, s.table.allocated p = true → (s.pcb p).timeUsed = 0 ∧
    (s.pcb p).timeCreated = 0 ∧ (s.pcb p).state ≠ .zombie
  idle : ∀ i, s.idle = some i → (s.pcb i).timeUsed = 0
  resting : ∀ p, (s.pcb p).state = .zombie → s.current ≠ some p

theorem schedulerInit_started (hH : H.KeepsTimes) (statics : Statics) (config : Option Config) :
    Started statics (schedulerInit H statics config) := by
  unfold schedulerInit
  set s₀ := initialState H statics (config.getD defaultConfig) with hs₀
  have hfree : ∀ p, s₀.table.allocated p = false := fun p => hH.processTableInit_free _ p
  rcases createProcess_born hH s₀ [105, 100, 108, 101] .system 3 PROCESS_FLAG_CPU_BOUND with
    he | ⟨p, he, hb⟩
  · rw [he]
    refine ⟨rfl, rfl, rfl, fun p hp => ?_, nofun, fun _ _ => nofun⟩
    rw [hfree p] at hp
    cases hp
  · generalize createProcess H s₀ _ _ _ _ = r at he hb
    simp only [he]
    have hself : (State.setPcb { r.1 with idle := some p, current := some p } p fun q =>
        { q with state := .running }).pcb p = { r.1.pcb p with state := .running } :=
      setPcb_self _ p _
    have hone : ∀ q, r.1.table.allocated q = true → q = p := by
      intro q hq
      by_contra hqp
      rw [hb.allocated q hqp, hfree q] at hq
      cases hq
    refine ⟨rfl, hb.statics, hb.figures, fun q hq => ?_, fun i hi => ?_, fun q hq hc => ?_⟩
    · obtain rfl := hone q hq
      refine ⟨?_, ?_, ?_⟩
      · exact (congrArg Pcb.timeUsed hself).trans hb.used
      · exact (congrArg Pcb.timeCreated hself).trans hb.created
      · have hst := congrArg Pcb.state hself
        intro hz
        cases hz.symm.trans hst
    · obtain rfl : p = i := Option.some.inj hi
      exact (congrArg Pcb.timeUsed hself).trans hb.used
    · obtain rfl : p = q := Option.some.inj hc
      have hst := congrArg Pcb.state hself
      cases hq.symm.trans hst

end OSCompas.Kernel
