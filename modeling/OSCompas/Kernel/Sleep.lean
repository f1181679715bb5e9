import OSCompas.Kernel.Work

/-!
# How long a process sleeps

`scheduler_sleep_process` stores the 32-bit sum of `system_ticks` and the ticks asked for, and
`check_sleeping_processes` compares it with the tick counter, which wraps.

* `State.alarm` — what the loop of `check_sleeping_processes` goes by: the sleepers and the counter;
* `State.checked` — the state `check_sleeping_processes` leaves at the next tick;
* `Slumber` — a call that does not touch a process otherwise, with the ticks counted;
* `SleepsOut` — the property;
* `Sleeper` — what holds of a process that is asleep.

Principal results: `checked_state`, `checkSleepingLoop_keeps`, `sleepProcess_sleeper` and
`sleeps_out_iff`.
-/

set_option autoImplicit false

namespace OSCompas.Kernel

open Function Runs

variable {H : Helpers} {s s' t : State} {c p x : Slot} {op : Op} {f : Pcb → Pcb} {T n : Nat}

/-! ## The property -/

/-- The state after `check_sleeping_processes` in the next call of `scheduler_tick_handler`. -/
def State.checked (H : Helpers) (s : State) : State :=
  checkSleepingProcesses H (updateProcessTimes H { s with systemTicks := s.systemTicks + 1 })

/-- The process `c` keeps its state and its deadline. -/
def Untouched (c : Slot) (s s' : State) : Prop :=
  (s'.pcb c).state = (s.pcb c).state ∧ (s'.pcb c).deadline = (s.pcb c).deadline

/-- A call in which nothing but `check_sleeping_processes` touches `c`; the ticks are counted. -/
structure Slumber (H : Helpers) (c : Slot) (s : State × Nat) (op : Op) (t : State × Nat) :
    Prop where
  call : Step H s.1 op t.1
  ticks : t.2 = if op = .tick then s.2 + 1 else s.2
  untouched : Untouched c (if op = .tick then s.1.checked H else s.1) t.1

/-- From `s` on, unless it is touched otherwise, `c` sleeps through `n - 1` ticks, and
`check_sleeping_processes` makes it ready at the next one. -/
structure SleepsOut (H : Helpers) (c : Slot) (n : Nat) (s : State) : Prop where
  asleep : ∀ t, Reaches (Slumber H c) anyAction (s, 0) t → t.2 < n →
    (t.1.pcb c).state = .sleeping
  checked : ∀ t, Reaches (Slumber H c) anyAction (s, 0) t → t.2 < n →
    ((t.1.checked H).pcb c).state = if t.2 + 1 = n then .ready else .sleeping

/-! ## Sleepers and the counter -/

/-- The sleep queue and the tick counter. -/
def State.alarm (s : State) : WaitQueue × UInt32 := (s.sleepQueue, s.systemTicks)

@[simp] theorem alarm_setPcb : (s.setPcb p f).alarm = s.alarm := rfl

@[simp] theorem alarm_setState {st : ProcessState} : (s.setState H p st).alarm = s.alarm := rfl

@[simp] theorem alarm_add : (addToReadyQueueInternal H s p).alarm = s.alarm := by
  unfold addToReadyQueueInternal
  split
  · rfl
  · split <;> rfl

@[simp] theorem alarm_remove : (removeFromReadyQueueInternal H s p).alarm = s.alarm := by
  obtain ⟨l, hl⟩ := remove_eq (H := H) s p
  rw [hl]
  rfl

@[simp] theorem alarm_getNextProcess : (getNextProcess H s).1.alarm = s.alarm := by
  unfold getNextProcess
  split <;> rfl

@[simp] theorem alarm_putBack : (putBack H s).alarm = s.alarm := by
  unfold putBack
  split
  · rfl
  · split
    · rfl
    · split
      · simp
      · rfl

@[simp] theorem alarm_dispatch : (dispatch H s x).alarm = s.alarm := by
  have h : (removeFromReadyQueueInternal H (State.setPcb (s.setState H x .running) x fun q =>
      { q with timeStarted := s.systemTicks, timeSliceUsed := 0 }) x).alarm = s.alarm := by simp
  exact h

theorem schedule_alarm (h : schedule H s = some s') : s'.alarm = s.alarm := by
  obtain ⟨-, rfl⟩ | ⟨-, rfl⟩ | ⟨next, -, -, rfl⟩ := schedule_cases h
  · rfl
  · exact alarm_getNextProcess
  · rw [alarm_dispatch, alarm_putBack]
    exact alarm_getNextProcess

/-- **Only the timer and `scheduler_sleep_process` write them**, and the latter adds a sleeper. -/
theorem step_alarm (hH : H.Documented) (h : Step H s op s') (hop : op ≠ .tick) :
    s'.systemTicks = s.systemTicks ∧
      (c ∈ s.sleepQueue.nodes → c ∈ s'.sleepQueue.nodes) := by
  have hsame : s'.alarm = s.alarm → s'.systemTicks = s.systemTicks ∧
      (c ∈ s.sleepQueue.nodes → c ∈ s'.sleepQueue.nodes) := fun he => by
    obtain ⟨hq, ht⟩ := Prod.mk.injEq _ _ _ _ ▸ he
    exact ⟨ht, fun hc => hq ▸ hc⟩
  cases op with
  | create name type priority flags =>
    cases h
    apply hsame
    unfold createProcess
    split
    · rfl
    · exact alarm_add
  | terminate pid exitCode =>
    cases h
    apply hsame
    unfold terminateProcess
    split
    · rfl
    · split
      · rfl
      · dsimp only
        split <;> exact alarm_remove
  | reap pid =>
    cases h
    apply hsame
    unfold reapProcess
    split
    · rfl
    · split <;> rfl
  | schedule => exact hsame (schedule_alarm h)
  | tick => exact absurd rfl hop
  | yield =>
    obtain ⟨u, hs, hu⟩ := yield_cases h
    apply hsame
    rw [schedule_alarm hs]
    rcases hu with rfl | rfl | ⟨d, rfl⟩ <;> rfl
  | block =>
    obtain ⟨⟨s₁, r⟩, hb, rfl⟩ := Option.map_eq_some_iff.mp h
    apply hsame
    obtain rfl | ⟨d, -, -, hs⟩ := blockProcess_cases hb
    · rfl
    · have hal := schedule_alarm hs
      exact hal
  | wakeup pid =>
    cases h
    apply hsame
    unfold wakeupProcess
    split
    · rfl
    · exact alarm_add
  | sleep ticks =>
    obtain ⟨⟨s₁, r⟩, hb, rfl⟩ := Option.map_eq_some_iff.mp h
    obtain ⟨rfl, -⟩ | ⟨d, -, -, hs⟩ := sleepProcess_cases hb
    · exact hsame rfl
    · obtain ⟨hq, ht⟩ := Prod.mk.injEq _ _ _ _ ▸ schedule_alarm hs
      refine ⟨ht, fun hc => ?_⟩
      rw [hq, hH.waitQueueEnqueue_append]
      exact List.mem_append_left _ hc
  | setPriority pid priority =>
    cases h
    apply hsame
    unfold setPriority
    split
    · rfl
    · dsimp only
      generalize (if 4 ≤ priority then 3 else priority) = level
      split
      · rw [alarm_add, alarm_remove]
        rfl
      · rfl

/-! ## The timer -/

/-- The sleepers that are not due yet stay in the queue. -/
theorem checkSleepingLoop_keeps (hH : H.Complete) {l kept : List Slot}
    (hnodes : s.sleepQueue.nodes = kept ++ l) (hc : c ∈ kept ++ l)
    (hd : ¬ (s.pcb c).deadline ≤ s.systemTicks) :
    c ∈ (checkSleepingLoop H s kept l).sleepQueue.nodes := by
  induction l generalizing s kept with
  | nil =>
    unfold checkSleepingLoop
    rwa [hnodes]
  | cons p rest ih =>
    unfold checkSleepingLoop
    split
    · rename_i hp
      -- `p` is due, so it is not `c`
      have hcp : c ≠ p := fun he => hd (he ▸ hp)
      obtain ⟨hq, ht⟩ := Prod.mk.injEq _ _ _ _ ▸ alarm_add (H := H) (p := p)
        (s := State.setState H { s with sleepQueue := { s.sleepQueue with
          nodes := kept ++ rest
          tail := if rest = [] then kept.getLast? else s.sleepQueue.tail } } p .ready)
      have hw := woken_one hH s p { s.sleepQueue with
        nodes := kept ++ rest
        tail := if rest = [] then kept.getLast? else s.sleepQueue.tail }
      apply ih
      · rw [hq]
        rfl
      · rw [List.mem_append, List.mem_cons] at hc
        rw [List.mem_append]
        exact hc.imp_right fun h => h.resolve_left hcp
      · rw [hw.pcb, if_neg (by simpa using hcp), hw.ticks]
        exact hd
    · apply ih
      · rw [hnodes, List.append_assoc]
        rfl
      · rwa [List.append_assoc]
      · exact hd

/-- **What `check_sleeping_processes` makes of a process.** -/
theorem checked_state (hH : H.Complete) (s : State) (c : Slot) :
    ((s.checked H).pcb c).state = (if c ∈ s.due then .ready else (s.pcb c).state) ∧
      ((s.checked H).pcb c).deadline = (s.pcb c).deadline := by
  have hch := updateProcessTimes_charged hH { s with systemTicks := s.systemTicks + 1 }
  unfold State.checked
  generalize updateProcessTimes H { s with systemTicks := s.systemTicks + 1 } = u at hch ⊢
  have hw := checkSleepingLoop_woken (s := u) (l := u.sleepQueue.nodes) hH []
  have hdue : c ∈ u.sleepQueue.nodes.filter (fun p => (u.pcb p).deadline ≤ u.systemTicks) ↔
      c ∈ s.due := by
    unfold State.due
    rw [List.mem_filter, List.mem_filter, hch.sleepers, hch.deadline, hch.ticks]
    rfl
  have hpcb := hw.pcb c
  have hst : (u.pcb c).state = (s.pcb c).state := hch.state c
  have hdl : (u.pcb c).deadline = (s.pcb c).deadline := hch.deadline c
  unfold checkSleepingProcesses
  rw [hpcb]
  by_cases hc : c ∈ s.due
  · rw [if_pos (hdue.mpr hc), if_pos hc]
    exact ⟨rfl, hdl⟩
  · rw [if_neg fun h => hc (hdue.mp h), if_neg hc]
    exact ⟨hst, hdl⟩

/-- **What it leaves of the alarm**: the counter has moved on, and who is not due still sleeps. -/
theorem checked_alarm (hH : H.Complete) (s : State) :
    (s.checked H).systemTicks = s.systemTicks + 1 ∧
    (c ∈ s.sleepQueue.nodes → c ∉ s.due → c ∈ (s.checked H).sleepQueue.nodes) := by
  have hch := updateProcessTimes_charged hH { s with systemTicks := s.systemTicks + 1 }
  unfold State.checked
  generalize updateProcessTimes H { s with systemTicks := s.systemTicks + 1 } = u at hch ⊢
  refine ⟨?_, fun hc hdue => ?_⟩
  · exact (checkSleepingLoop_woken (s := u) (l := u.sleepQueue.nodes) hH []).ticks.trans hch.ticks
  · refine checkSleepingLoop_keeps hH rfl ?_ fun hd => hdue ?_
    · rw [hch.sleepers]
      exact hc
    · rw [hch.deadline, hch.ticks] at hd
      exact List.mem_filter.mpr ⟨hc, decide_eq_true hd⟩

/-- The rest of the tick leaves it alone. -/
theorem tick_alarm (h : tickHandler H s = some s') : s'.alarm = (s.checked H).alarm := by
  obtain ⟨u, hu, h⟩ := tickHandler_cases h
  obtain ⟨st, sc, rfl⟩ := updateSchedulerStats_eq hu
  rcases h with ⟨-, h⟩ | ⟨-, rfl⟩
  · have hal := schedule_alarm h
    exact hal
  · rfl

/-! ## Asleep -/

/-- The process `c` called `scheduler_sleep_process(n)` when the counter was `T`; since then there
were `t.2` ticks. -/
structure Sleeper (c : Slot) (T n : Nat) (t : State × Nat) : Prop where
  state : (t.1.pcb c).state = .sleeping
  deadline : (t.1.pcb c).deadline.toNat = (T + n) % 2 ^ 32
  queued : c ∈ t.1.sleepQueue.nodes
  ticks : t.1.systemTicks.toNat = (T + t.2) % 2 ^ 32

/-- A dispatch writes the PCB of the new process only. -/
theorem dispatch_pcb (s : State) (h : p ≠ x) : (dispatch H s x).pcb p = s.pcb p := by
  have hrem : ∀ u : State, (removeFromReadyQueueInternal H u x).pcb p = u.pcb p := fun u => by
    obtain ⟨l, hl⟩ := remove_eq (H := H) u x
    rw [hl]
    rfl
  unfold dispatch
  dsimp only
  refine (hrem _).trans ?_
  rw [setPcb_of_ne _ _ h]
  exact setPcb_of_ne s _ h

/-- The current process is not touched by `scheduler_schedule` if it does not run. -/
theorem schedule_pcb (hc : s.current = some c) (hst : (s.pcb c).state ≠ .running)
    (h : schedule H s = some s') : s'.pcb c = s.pcb c := by
  have hframe := getNextProcess_frame (H := H) s
  have hpcb : (getNextProcess H s).1.pcb c = s.pcb c := congrArg (fun t => t.processes c) hframe.1
  obtain ⟨-, rfl⟩ | ⟨-, rfl⟩ | ⟨next, -, hne, rfl⟩ := schedule_cases h
  · rfl
  · exact hpcb
  · have hcn : c ≠ next := fun he => hne (by rw [hc, he])
    rw [dispatch_pcb _ hcn]
    unfold putBack
    split
    · exact hpcb
    · rename_i d hd
      obtain rfl : c = d := Option.some.inj (hc.symm.trans (hframe.2.1.symm.trans hd))
      split
      · exact hpcb
      · rw [if_neg]
        · exact hpcb
        · show ((getNextProcess H s).1.pcb c).state ≠ .running
          rwa [hpcb]

/-- **The call** puts the process to sleep. -/
theorem sleepProcess_sleeper (hH : H.Complete) {ticks : UInt32} (hc : s.current = some c)
    (h : sleepProcess H s ticks = some (s', 0)) :
    Sleeper c s.systemTicks.toNat ticks.toNat (s', 0) := by
  obtain ⟨-, hr⟩ | ⟨d, hd, -, hs⟩ := sleepProcess_cases h
  · exact absurd hr (by decide)
  · obtain rfl : c = d := Option.some.inj (hc.symm.trans hd)
    obtain ⟨hq, ht⟩ := Prod.mk.injEq _ _ _ _ ▸ schedule_alarm hs
    set v : State := State.setPcb (s.setState H c .sleeping) c fun q =>
      { q with deadline := s.systemTicks + ticks } with hv
    have hvc : v.pcb c = { s.pcb c with
        state := .sleeping, deadline := s.systemTicks + ticks } := by
      rw [hv, State.setState, setPcb_setPcb, setPcb_self, hH.pcbSetState_eq]
    have hasleep : (v.pcb c).state ≠ .running := by
      simp [hvc]
    have hsame := schedule_pcb (c := c) (by exact hc) (by exact hasleep) hs
    have hpcb : s'.pcb c = v.pcb c := hsame
    refine ⟨?_, ?_, ?_, ?_⟩
    · rw [hpcb, hvc]
    · rw [hpcb, hvc]
      exact UInt32.toNat_add _ _
    · rw [hq]
      show c ∈ (H.waitQueueEnqueue s.sleepQueue c).nodes
      rw [hH.waitQueueEnqueue_append]
      exact List.mem_append_right _ (List.mem_singleton_self c)
    · rw [ht]
      exact (Nat.mod_eq_of_lt s.systemTicks.toNat_lt).symm

/-- When a sleeper is due at the next tick. -/
theorem Sleeper.due_iff {t : State × Nat} (h : Sleeper c T n t) :
    c ∈ t.1.due ↔ (T + n) % 2 ^ 32 ≤ (T + t.2 + 1) % 2 ^ 32 := by
  have hnext : (t.1.systemTicks + 1).toNat = (T + t.2 + 1) % 2 ^ 32 := by
    rw [UInt32.toNat_add, h.ticks]
    simp
  unfold State.due
  rw [List.mem_filter, decide_eq_true_iff, UInt32.le_iff_toNat_le, h.deadline, hnext]
  exact and_iff_right h.queued

/-- The deadline and the counter do not lie on different sides of a wrap. -/
def Unwrapped (T n : Nat) : Prop := T + n < 2 ^ 32 ∨ T = 2 ^ 32 - 1

/-- Then the comparison of `check_sleeping_processes` counts the ticks. -/
theorem Unwrapped.due_iff {k : Nat} (h : Unwrapped T n) (hn : n < 2 ^ 32) (hk : k < n) :
    (T + n) % 2 ^ 32 ≤ (T + k + 1) % 2 ^ 32 ↔ k + 1 = n := by
  rcases h with h | rfl <;> omega

/-- **The step**: a sleeper sleeps on. -/
theorem Sleeper.step {t t' : State × Nat} (hH : H.Complete) (hw : Unwrapped T n)
    (hn : n < 2 ^ 32) (h : Sleeper c T n t) (hs : Slumber H c t op t') (ht : t'.2 < n) :
    Sleeper c T n t' := by
  obtain ⟨hcall, hcount, hstate, hdeadline⟩ := hs
  by_cases hop : op = .tick
  · subst hop
    rw [if_pos rfl] at hcount hstate hdeadline
    have hdue : c ∉ t.1.due := by
      rw [h.due_iff, hw.due_iff hn (by omega)]
      omega
    obtain ⟨hst, hdl⟩ := checked_state hH t.1 c
    obtain ⟨hticks, hkeeps⟩ := checked_alarm (c := c) hH t.1
    obtain ⟨hq, hsys⟩ := Prod.mk.injEq _ _ _ _ ▸ tick_alarm hcall
    refine ⟨?_, ?_, ?_, ?_⟩
    · rw [hstate, hst, if_neg hdue, h.state]
    · rw [hdeadline, hdl, h.deadline]
    · rw [hq]
      exact hkeeps h.queued hdue
    · rw [hsys, hticks, UInt32.toNat_add, h.ticks, hcount]
      simp [Nat.add_assoc]
  · rw [if_neg hop] at hcount hstate hdeadline
    obtain ⟨hsys, hkeeps⟩ := step_alarm (c := c) hH.toDocumented hcall hop
    refine ⟨?_, ?_, hkeeps h.queued, ?_⟩
    · rw [hstate, h.state]
    · rw [hdeadline, h.deadline]
    · rw [hsys, h.ticks, hcount]

theorem Slumber.ticks_le {t t' : State × Nat} (h : Slumber H c t op t') : t.2 ≤ t'.2 := by
  rw [h.ticks]
  split <;> omega

/-- **The run.** -/
theorem run_sleeper {t : State × Nat} (hH : H.Complete) (hw : Unwrapped T n) (hn : n < 2 ^ 32)
    (h : Sleeper c T n (s, 0)) (hrun : Reaches (Slumber H c) anyAction (s, 0) t) (ht : t.2 < n) :
    Sleeper c T n t := by
  refine hrun.invariant (I := fun t => t.2 < n → Sleeper c T n t) (fun _ => h) ?_ ht
  intro t op t' hi _ hs ht'
  exact (hi (Nat.lt_of_le_of_lt hs.ticks_le ht')).step hH hw hn hs ht'

/-! ## The property -/

/-- **A process sleeps as long as asked exactly if** the deadline does not wrap, or the counter
wraps at the next tick. -/
theorem sleeps_out_iff (hH : H.Complete) {ticks : UInt32} (hc : s.current = some c)
    (hticks : 1 ≤ ticks) (h : sleepProcess H s ticks = some (s', 0)) :
    SleepsOut H c ticks.toNat s' ↔ Unwrapped s.systemTicks.toNat ticks.toNat := by
  have hsl := sleepProcess_sleeper hH hc h
  have hpos : 1 ≤ ticks.toNat := by
    rw [UInt32.le_iff_toNat_le] at hticks
    exact hticks
  have hlt := ticks.toNat_lt
  have hT := s.systemTicks.toNat_lt
  constructor
  · intro hout
    have hfirst := hout.checked (s', 0) .refl hpos
    rw [(checked_state hH s' c).1, hsl.state] at hfirst
    unfold Unwrapped
    by_contra hwrap
    have hdue : c ∈ s'.due := by
      rw [hsl.due_iff]
      dsimp only
      omega
    rw [if_pos hdue, if_neg (by omega)] at hfirst
    cases hfirst
  · intro hw
    refine ⟨fun t hrun ht => (run_sleeper hH hw hlt hsl hrun ht).state, fun t hrun ht => ?_⟩
    have hst := run_sleeper hH hw hlt hsl hrun ht
    rw [(checked_state hH t.1 c).1, hst.state]
    exact if_congr (hst.due_iff.trans (hw.due_iff hlt ht)) rfl rfl

/-- A process asks for 3 ticks at tick 1. -/
theorem sleeps_out_iff_three : ∃ s s', s.current = some 1 ∧ s.systemTicks = 1 ∧
    sleepProcess listHelpers s 3 = some (s', 0) ∧
    (SleepsOut listHelpers 1 (3 : UInt32).toNat s' ↔ Unwrapped s.systemTicks.toNat 3) := by
  have hx : ((exec (step listHelpers) (fun _ _ => true)
      (schedulerInit listHelpers ⟨0, 0, 0, 0⟩ (some ⟨.rr, 10, true, false, 4, 1000, 500⟩))
      [.schedule, .create [] .user 0 0, .create [] .user 0 0, .yield, .tick]).bind fun s =>
        (sleepProcess listHelpers s 3).map fun r =>
          (s.current, s.systemTicks, r.2)) = some (some 1, 1, 0) := by decide +kernel
  obtain ⟨s, -, hx⟩ := Option.bind_eq_some_iff.mp hx
  obtain ⟨⟨s', r⟩, hsleep, hobs⟩ := Option.map_eq_some_iff.mp hx
  simp only [Prod.mk.injEq] at hobs
  obtain ⟨hc, ht, rfl⟩ := hobs
  exact ⟨s, s', hc, ht, hsleep, sleeps_out_iff listHelpers_complete hc (by decide) hsleep⟩

/-- Five ticks before the counter wraps, a process that asks for 10 ticks is woken at the first. -/
theorem woken_early : ¬ ∀ (H : Helpers) (s s' : State) (c : Slot) (ticks : UInt32), H.Complete →
    s.current = some c → 1 ≤ ticks → ticks.toNat < 2 ^ 31 → sleepProcess H s ticks = some (s', 0) →
    SleepsOut H c ticks.toNat s' := by
  intro hall
  have hx : ((exec (step listHelpers) (fun _ _ => true)
      (schedulerInit listHelpers ⟨0, 0, 0, 0⟩ (some ⟨.rr, 10, true, false, 4, 1000, 500⟩))
      [.schedule, .create [] .user 0 0, .create [] .user 0 0, .yield]).bind fun s =>
        (sleepProcess listHelpers { s with systemTicks := 4294967291 } 10).map fun r =>
          (s.current, r.2, ((r.1.checked listHelpers).pcb 1).state)) =
        some (some 1, 0, .ready) := by decide +kernel
  obtain ⟨s, -, hx⟩ := Option.bind_eq_some_iff.mp hx
  obtain ⟨⟨s', r⟩, hsleep, hobs⟩ := Option.map_eq_some_iff.mp hx
  simp only [Prod.mk.injEq] at hobs
  obtain ⟨hc, rfl, hready⟩ := hobs
  have hout := hall listHelpers { s with systemTicks := 4294967291 } s' 1 10
    listHelpers_complete hc (by decide) (by decide) hsleep
  have hfirst := hout.checked (s', 0) .refl (show 0 < (10 : UInt32).toNat by decide)
  rw [hready, if_neg (show ¬ 0 + 1 = (10 : UInt32).toNat by decide)] at hfirst
  cases hfirst

end OSCompas.Kernel
