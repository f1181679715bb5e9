import OSCompas.Kernel.Helpers

/-!
# The idle process

What the calls leave alone of the process in the slot `i` that `idle_process` points to.

* `Calm` — a step that keeps the idle process out of the wait and sleep queues and running;
* `State.Runs` — the slot is allocated to a running process.

Principal results: `step_calm`, `schedulerInit_idle` and `idle_runs`.
-/

set_option autoImplicit false

namespace OSCompas.Kernel

open Function Runs

/-- The slot is allocated to a process in state `PROCESS_RUNNING`. -/
def State.Runs (s : State) (i : Slot) : Prop :=
  s.table.allocated i = true ∧ (s.pcb i).state = .running

/-- A step that leaves the idle process where it is. -/
structure Calm (i : Slot) (s s' : State) : Prop where
  idle : s'.idle = s.idle
  runs : s.Runs i → s'.Runs i
  wait : i ∈ s'.waitQueue.nodes → i ∈ s.waitQueue.nodes
  sleep : i ∈ s'.sleepQueue.nodes → i ∈ s.sleepQueue.nodes

variable {H : Helpers} {s s' s'' : State} {i p q c x : Slot} {f : Pcb → Pcb} {op : Op}

theorem Calm.refl (i : Slot) (s : State) : Calm i s s := ⟨rfl, id, id, id⟩

theorem Calm.trans (h : Calm i s s') (h' : Calm i s' s'') : Calm i s s'' := by
  constructor
  · exact h'.idle.trans h.idle
  · intro hr
    exact h'.runs (h.runs hr)
  · intro hw
    exact h.wait (h'.wait hw)
  · intro hw
    exact h.sleep (h'.sleep hw)

/-- Neither the table nor the idle pointer nor the waiting processes change. -/
theorem Calm.of_eq (ht : s'.table = s.table) (hi : s'.idle = s.idle)
    (hw : s'.waitQueue = s.waitQueue) (hs : s'.sleepQueue = s.sleepQueue) : Calm i s s' := by
  constructor
  · exact hi
  · intro hr
    unfold State.Runs State.pcb
    rw [ht]
    exact hr
  · rw [hw]
    exact id
  · rw [hs]
    exact id

/-- Only processes that run all the same, or other processes, are written. -/
theorem Calm.setPcb (s : State) (hf : i = p → (f (s.pcb p)).state = .running ∨
    (f (s.pcb p)).state = (s.pcb p).state) : Calm i s (s.setPcb p f) := by
  refine ⟨rfl, ?_, id, id⟩
  intro hr
  refine ⟨hr.1, ?_⟩
  by_cases hip : i = p
  · subst hip
    rw [setPcb_self]
    rcases hf rfl with h | h
    · exact h
    · exact h.trans hr.2
  · rw [setPcb_of_ne s f hip]
    exact hr.2

theorem Calm.setFields (s : State) (p : Slot) (hf : ∀ q, (f q).state = q.state) :
    Calm i s (s.setPcb p f) := .setPcb s fun _ => .inr (hf _)

theorem Calm.setState (H : Helpers) (s : State) (st : ProcessState) (hip : i ≠ p) :
    Calm i s (s.setState H p st) := .setPcb s fun he => absurd he hip

theorem Calm.add (H : Helpers) (s : State) (p : Slot) :
    Calm i s (addToReadyQueueInternal H s p) := by
  unfold addToReadyQueueInternal
  split
  · exact .refl i s
  · split
    · exact .of_eq rfl rfl rfl rfl
    · exact .of_eq rfl rfl rfl rfl
    · exact .of_eq rfl rfl rfl rfl
    · exact .refl i s

theorem Calm.remove (H : Helpers) (s : State) (p : Slot) :
    Calm i s (removeFromReadyQueueInternal H s p) := by
  obtain ⟨l, hl⟩ := remove_eq (H := H) s p
  rw [hl]
  exact .of_eq rfl rfl rfl rfl

theorem getNextProcess_calm (H : Helpers) (s : State) : Calm i s (getNextProcess H s).1 := by
  unfold getNextProcess
  split
  · exact .of_eq rfl rfl rfl rfl
  · exact .of_eq rfl rfl rfl rfl
  · exact .of_eq rfl rfl rfl rfl
  · exact .of_eq rfl rfl rfl rfl

/-! ## Switches -/

theorem putBack_calm (H : Helpers) (hi : s.idle = some i) : Calm i s (putBack H s) := by
  unfold putBack
  split
  · exact .refl i s
  · rename_i c hc
    split
    · exact .refl i s
    · rename_i hci
      split
      · have hne : i ≠ c := fun he => hci (by rw [hi, he])
        exact (Calm.setState H s .ready hne).trans (.add H _ c)
      · exact .refl i s

theorem dispatch_calm (hH : H.Documented) (s : State) (x : Slot) : Calm i s (dispatch H s x) := by
  have h1 : Calm i s (s.setState H x .running) :=
    .setPcb s fun _ => .inl (hH.pcbSetState_state _ _)
  have h2 := h1.trans (.setFields _ x (f := fun q => { q with
    timeStarted := s.systemTicks, timeSliceUsed := 0 }) fun _ => rfl)
  exact (h2.trans (.remove H _ x)).trans (.of_eq rfl rfl rfl rfl)

theorem schedule_calm (hH : H.Documented) (hi : s.idle = some i) (h : schedule H s = some s') :
    Calm i s s' := by
  have h1 := getNextProcess_calm (i := i) H s
  obtain ⟨-, rfl⟩ | ⟨-, rfl⟩ | ⟨x, -, -, rfl⟩ := schedule_cases h
  · exact .refl i s'
  · exact h1
  · have h2 : Calm i s (getNextProcess H s).1.switched := h1.trans (.of_eq rfl rfl rfl rfl)
    exact (h2.trans (putBack_calm H (h2.idle.trans hi))).trans (dispatch_calm hH _ x)

/-- A step that leaves the idle process, and then a switch. -/
theorem Calm.reschedule (hH : H.Documented) (hi : s.idle = some i) (h : Calm i s s')
    (hs : schedule H { s' with needReschedule := true } = some s'') : Calm i s s'' := by
  have h1 : Calm i s { s' with needReschedule := true } := h.trans (.of_eq rfl rfl rfl rfl)
  exact h1.trans (schedule_calm hH (h1.idle.trans hi) hs)

/-! ## The timer -/

theorem adjust_calm (hH : H.Documented) (s : State) (c : Slot) :
    let r := H.mlfqAdjustPriority s.mlfq c (s.pcb c) true
    Calm i s (State.setPcb { s with mlfq := r.1 } c fun _ => r.2) := by
  intro r
  have h1 : Calm i s { s with mlfq := r.1 } := .of_eq rfl rfl rfl rfl
  apply h1.trans
  exact .setPcb _ fun _ => .inr (hH.mlfqAdjustPriority_state _ _ _ _)

theorem updateProcessTimes_calm (hH : H.Documented) (s : State) :
    Calm i s (updateProcessTimes H s) := by
  apply updateProcessTimes_induction (P := Calm i s) (.refl i s)
  · intro c u f _ _ hf hu
    exact hu.trans (.setFields u c fun q => (hf q).1)
  · intro c u _ _ hu
    exact hu.trans (adjust_calm hH u c)

/-- The loop wakes other processes than the idle one. -/
theorem checkSleepingLoop_calm (H : Helpers) {l kept : List Slot} (hi : i ∉ kept ++ l) :
    Calm i s (checkSleepingLoop H s kept l) := by
  induction l generalizing s kept with
  | nil => exact .refl i s
  | cons p rest ih =>
    unfold checkSleepingLoop
    rw [List.mem_append, List.mem_cons, not_or, not_or] at hi
    obtain ⟨hk, hip, hr⟩ := hi
    have hrest : i ∉ kept ++ rest := by
      rw [List.mem_append, not_or]
      exact ⟨hk, hr⟩
    split
    · have h1 : Calm i s { s with sleepQueue := { s.sleepQueue with
          nodes := kept ++ rest
          tail := if rest = [] then kept.getLast? else s.sleepQueue.tail } } :=
        ⟨rfl, id, id, fun h => absurd h hrest⟩
      have h2 := (h1.trans (.setState H _ .ready hip)).trans (.add H _ p)
      exact h2.trans (ih hrest)
    · apply ih
      rw [List.append_assoc, List.singleton_append, List.mem_append, List.mem_cons, not_or, not_or]
      exact ⟨hk, hip, hr⟩

theorem checkSleepingProcesses_calm (H : Helpers) (hi : i ∉ s.sleepQueue.nodes) :
    Calm i s (checkSleepingProcesses H s) := checkSleepingLoop_calm H hi

theorem updateSchedulerStats_calm (h : updateSchedulerStats s = some s') : Calm i s s' := by
  obtain ⟨st, sc, rfl⟩ := updateSchedulerStats_eq h
  exact .of_eq rfl rfl rfl rfl

theorem tickHandler_calm (hH : H.Documented) (hi : s.idle = some i)
    (hs : i ∉ s.sleepQueue.nodes) (h : tickHandler H s = some s') : Calm i s s' := by
  obtain ⟨t, ht, h⟩ := tickHandler_cases h
  have h1 : Calm i s { s with systemTicks := s.systemTicks + 1 } := .of_eq rfl rfl rfl rfl
  have h2 := h1.trans (updateProcessTimes_calm hH _)
  have h3 := h2.trans (checkSleepingProcesses_calm H fun hn => hs (h2.sleep hn))
  have h4 := h3.trans (updateSchedulerStats_calm ht)
  rcases h with ⟨-, h⟩ | ⟨-, rfl⟩
  · exact h4.reschedule hH hi h
  · exact h4

/-! ## Calls -/

theorem createProcess_calm (hH : H.Documented) (s : State) (name : List UInt8)
    (type : ProcessType) (priority : UInt8) (flags : UInt32) :
    Calm i s (createProcess H s name type priority flags).1 := by
  unfold createProcess
  cases halloc : H.pcbAlloc s.table with
  | none => exact .refl i s
  | some a =>
    obtain ⟨p, table⟩ := a
    obtain ⟨hfree, hallocated, hother⟩ := hH.pcbAlloc_free _ _ _ halloc
    dsimp only
    set t : State := State.setState H (State.setPcb (State.setPcb (State.setPcb _ p _) p _) p _)
      p .ready with ht
    have h1 : Calm i s t := by
      refine ⟨rfl, ?_, id, id⟩
      rintro ⟨ha, hr⟩
      have hip : i ≠ p := by
        intro he
        rw [he, hfree] at ha
        exact absurd ha (by decide)
      constructor
      · show table.allocated i = true
        rw [hallocated, update_of_ne hip]
        exact ha
      · rw [ht, State.setState, setPcb_of_ne _ _ hip, setPcb_of_ne _ _ hip, setPcb_of_ne _ _ hip,
          setPcb_of_ne _ _ hip]
        exact (congrArg Pcb.state (hother i hip)).trans hr
    exact (h1.trans (.add H t p)).trans (.of_eq rfl rfl rfl rfl)

/-- Termination of another process. -/
theorem terminateProcess_calm (s : State) (pid : UInt32) (exitCode : Int32)
    (hg : H.processTableFind s.table pid ≠ some i) :
    Calm i s (terminateProcess H s pid exitCode).1 := by
  unfold terminateProcess
  split
  · exact .refl i s
  · rename_i p hp
    have hip : i ≠ p := fun he => hg (he ▸ hp)
    split
    · exact .refl i s
    · have h1 : Calm i s (s.setPcb p fun q => { q with exitCode := exitCode }) :=
        .setFields s p fun _ => rfl
      have h2 := h1.trans (.remove H _ p)
      dsimp only
      set a : State := removeFromReadyQueueInternal H _ p
      have h3 := h2.trans (.setFields a p (f := fun q => { q with
        timeTerminated := a.systemTicks }) fun _ => rfl)
      have h4 := h3.trans (.setState H _ .zombie hip)
      split
      · exact h4.trans (.of_eq rfl rfl rfl rfl)
      · exact h4.trans (.of_eq rfl rfl rfl rfl)

theorem reapProcess_calm (hH : H.Documented) (s : State) (pid : UInt32) :
    Calm i s (reapProcess H s pid).1 := by
  unfold reapProcess
  split
  · exact .refl i s
  · rename_i p hp
    split
    · exact .refl i s
    · rename_i hz
      dsimp only
      refine ⟨rfl, ?_, id, id⟩
      rintro ⟨ha, hr⟩
      have hip : i ≠ p := by
        intro he
        rw [← he, hr] at hz
        exact hz nofun
      obtain ⟨hbits, -, -, hother⟩ := hH.pcbFree_release
        (State.setState H { s with stats := _ } p .terminated).table p
      constructor
      · show (H.pcbFree _ p).allocated i = true
        rw [hbits, update_of_ne hip]
        exact ha
      · show ((H.pcbFree _ p).processes i).state = .running
        rw [hother i hip]
        exact (congrArg Pcb.state (setPcb_of_ne { s with stats := _ } _ hip)).trans hr

theorem yield_calm (hH : H.Documented) (hi : s.idle = some i) (h : yield H s = some s') :
    Calm i s s' := by
  obtain ⟨u, hs, hu⟩ := yield_cases h
  have h1 : Calm i s u := by
    rcases hu with rfl | rfl | ⟨c, rfl⟩
    · exact .refl i u
    · exact .of_eq rfl rfl rfl rfl
    · have h1 : Calm i s (s.setPcb c fun q => { q with timeInQueue := 0 }) :=
        .setFields s c fun _ => rfl
      exact h1.trans (.of_eq rfl rfl rfl rfl)
  exact h1.trans (schedule_calm hH (h1.idle.trans hi) hs)

theorem blockProcess_calm (hH : H.Documented) (hi : s.idle = some i) {r : Int32}
    (h : blockProcess H s = some (s', r)) : Calm i s s' := by
  obtain rfl | ⟨c, -, hci, hs⟩ := blockProcess_cases h
  · exact .refl i s'
  · have hic : i ≠ c := fun he => hci (by rw [hi, he])
    have h1 : Calm i s { s.setState H c .blocked with
        waitQueue := H.waitQueueEnqueue s.waitQueue c } := by
      apply (Calm.setState H s .blocked hic).trans
      refine ⟨rfl, id, ?_, id⟩
      intro hw
      rw [hH.waitQueueEnqueue_append, List.mem_append, List.mem_singleton] at hw
      exact hw.resolve_right hic
    exact h1.reschedule hH hi hs

theorem sleepProcess_calm (hH : H.Documented) (hi : s.idle = some i) {ticks : UInt32} {r : Int32}
    (h : sleepProcess H s ticks = some (s', r)) : Calm i s s' := by
  obtain ⟨rfl, -⟩ | ⟨c, -, hci, hs⟩ := sleepProcess_cases h
  · exact .refl i s'
  · have hic : i ≠ c := fun he => hci (by rw [hi, he])
    have h1 := (Calm.setState H s .sleeping hic).trans (.setFields _ c (f := fun q =>
      { q with deadline := s.systemTicks + ticks }) fun _ => rfl)
    have h2 : Calm i s { (s.setState H c .sleeping).setPcb c fun q =>
        { q with deadline := s.systemTicks + ticks } with
        sleepQueue := H.waitQueueEnqueue s.sleepQueue c } := by
      apply h1.trans
      refine ⟨rfl, id, id, ?_⟩
      intro hw
      rw [hH.waitQueueEnqueue_append, List.mem_append, List.mem_singleton] at hw
      exact hw.resolve_right hic
    exact h2.reschedule hH hi hs

theorem wakeupProcess_calm (hH : H.Documented) (s : State) (pid : UInt32)
    (hw : i ∉ s.waitQueue.nodes) : Calm i s (wakeupProcess H s pid).1 := by
  unfold wakeupProcess
  split
  · exact .refl i s
  · rename_i p hp
    have hip : i ≠ p := fun he => hw (he ▸ List.mem_of_find?_eq_some hp)
    have h1 : Calm i s { s with waitQueue := H.waitQueueRemove s.waitQueue p } :=
      ⟨rfl, id, fun h => ((hH.waitQueueRemove_mem _ _ _).mp h).1, id⟩
    exact (h1.trans (.setState H _ .ready hip)).trans (.add H _ p)

theorem setPriority_calm (hH : H.Documented) (s : State) (pid : UInt32) (priority : UInt8) :
    Calm i s (setPriority H s pid priority).1 := by
  unfold setPriority
  split
  · exact .refl i s
  · rename_i p hp
    dsimp only
    generalize (if 4 ≤ priority then 3 else priority) = level
    have h1 : Calm i s (s.setPcb p fun q => H.pcbSetPriority q level) :=
      .setFields s p fun q => hH.pcbSetPriority_state q level
    have h2 := h1.trans (.setFields _ p (f := fun q => { q with
      timeSlice := H.calculateTimeSlice level s.config.timeQuantum }) fun _ => rfl)
    split
    · exact (h2.trans (.remove H _ p)).trans (.add H _ p)
    · exact h2

/-! ## Runs -/

/-- The idle process waits for nothing. -/
def IdleAway (i : Slot) (s : State) : Prop :=
  s.idle = some i ∧ i ∉ s.waitQueue.nodes ∧ i ∉ s.sleepQueue.nodes

/-- The idle process is not terminated. -/
def IdleGuard (H : Helpers) (s : State) : Op → Prop
  | .terminate pid _ => s.idle = none ∨ H.processTableFind s.table pid ≠ s.idle
  | _ => True

instance (H : Helpers) (s : State) (op : Op) : Decidable (IdleGuard H s op) := by
  delta IdleGuard
  exact match op with
  | .create _ _ _ _ | .terminate _ _ | .reap _ | .schedule | .tick | .yield | .block | .wakeup _
  | .sleep _ | .setPriority _ _ => inferInstance

theorem Calm.away (h : Calm i s s') (hs : IdleAway i s) : IdleAway i s' := by
  obtain ⟨hi, hw, hl⟩ := hs
  exact ⟨h.idle.trans hi, fun hn => hw (h.wait hn), fun hn => hl (h.sleep hn)⟩

theorem step_calm (hH : H.Documented) (hs : IdleAway i s) (hg : IdleGuard H s op)
    (h : Step H s op s') : Calm i s s' := by
  obtain ⟨hi, hw, hl⟩ := hs
  cases op with
  | create name type priority flags =>
    obtain rfl := Option.some.inj h
    exact createProcess_calm hH s name type priority flags
  | terminate pid exitCode =>
    obtain rfl := Option.some.inj h
    apply terminateProcess_calm
    intro hf
    rcases hg with hg | hg
    · exact nomatch hi.symm.trans hg
    · exact hg (hf.trans hi.symm)
  | reap pid =>
    obtain rfl := Option.some.inj h
    exact reapProcess_calm hH s pid
  | schedule => exact schedule_calm hH hi h
  | tick => exact tickHandler_calm hH hi hl h
  | yield => exact yield_calm hH hi h
  | block =>
    obtain ⟨⟨t, r⟩, ht, rfl⟩ := Option.map_eq_some_iff.mp h
    exact blockProcess_calm hH hi ht
  | wakeup pid =>
    obtain rfl := Option.some.inj h
    exact wakeupProcess_calm hH s pid hw
  | sleep ticks =>
    obtain ⟨⟨t, r⟩, ht, rfl⟩ := Option.map_eq_some_iff.mp h
    exact sleepProcess_calm hH hi ht
  | setPriority pid priority =>
    obtain rfl := Option.some.inj h
    exact setPriority_calm hH s pid priority

/-- Termination moves nobody between the wait and sleep queues. -/
theorem terminateProcess_away (hs : IdleAway i s) (pid : UInt32) (exitCode : Int32) :
    IdleAway i (terminateProcess H s pid exitCode).1 := by
  unfold terminateProcess
  split
  · exact hs
  · rename_i p hp
    split
    · exact hs
    · have h1 : IdleAway i (removeFromReadyQueueInternal H
          (s.setPcb p fun q => { q with exitCode := exitCode }) p) := (Calm.remove H _ p).away hs
      dsimp only
      split
      · exact h1
      · exact h1

theorem step_away (hH : H.Documented) (hs : IdleAway i s) (h : Step H s op s') :
    IdleAway i s' := by
  cases op with
  | terminate pid exitCode =>
    obtain rfl := Option.some.inj h
    exact terminateProcess_away hs pid exitCode
  | _ =>
    apply Calm.away (step_calm hH hs ?_ h) hs
    trivial

/-- `scheduler_init` leaves the idle process running, and in the queue it was created in. -/
theorem schedulerInit_idle (hH : H.Complete) (statics : Statics) (config : Option Config) :
    ∃ i, IdleAway i (schedulerInit H statics config) ∧
      (schedulerInit H statics config).Runs i ∧
      (schedulerInit H statics config).current = some i := by
  unfold schedulerInit
  set s₀ := initialState H statics (config.getD defaultConfig) with hs₀
  have hfree : ∀ p, s₀.table.allocated p = false := fun p => hH.processTableInit_free _ p
  unfold createProcess
  cases halloc : H.pcbAlloc s₀.table with
  | none => exact absurd halloc (hH.pcbAlloc_some _ 0 (hfree 0))
  | some a =>
    obtain ⟨p, table⟩ := a
    obtain ⟨-, hallocated, -⟩ := hH.pcbAlloc_free _ _ _ halloc
    dsimp only
    set t : State := State.setState H (State.setPcb (State.setPcb (State.setPcb _ p _) p _) p _)
      p .ready with ht
    have hcalm := Calm.add (i := p) H t p
    have hwait : p ∉ s₀.waitQueue.nodes := by
      rw [show s₀.waitQueue.nodes = [] from hH.waitQueueInit_empty]
      exact List.not_mem_nil
    have hbit : t.table.allocated p = true := by
      show table.allocated p = true
      rw [hallocated, update_self]
    refine ⟨p, ⟨rfl, fun h => hwait (hcalm.wait h), fun h => hwait (hcalm.sleep h)⟩, ⟨?_, ?_⟩, rfl⟩
    · show (addToReadyQueueInternal H t p).table.allocated p = true
      rw [add_table]
      exact hbit
    · simp [State.pcb, State.setPcb]

/-- **In every run that does not terminate it the idle process stays in state
`PROCESS_RUNNING`.** -/
theorem idle_runs (hH : H.Complete) {statics : Statics} {config : Option Config}
    (hrun : Reaches (Step H) (IdleGuard H) (schedulerInit H statics config) s) :
    ∃ i, IdleAway i s ∧ s.Runs i := by
  obtain ⟨i, haway, hruns, -⟩ := schedulerInit_idle hH statics config
  refine ⟨i, ?_⟩
  apply hrun.invariant (I := fun s => IdleAway i s ∧ s.Runs i) ⟨haway, hruns⟩
  rintro s op s' ⟨ha, hr⟩ hg h
  have hcalm := step_calm hH.toDocumented ha hg h
  exact ⟨hcalm.away ha, hcalm.runs hr⟩

end OSCompas.Kernel
