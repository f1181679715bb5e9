import OSCompas.Kernel.Idle

/-!
# Work and the idle process

A timer tick switches away from the idle process only if somebody asked for it, and to it although
the process it takes the CPU from is ready again.

* `IdleLast` — the idle process is current only if no other process is ready;
* `Switches` — the tick calls `scheduler_schedule`;
* `State.Waiting`, `State.Ahead` — somebody waits, somebody waits in front of the idle process;
* `TickOk` — the condition;
* `Charged`, `Woken` — what the two first parts of the tick change.

Principal results: `checkSleepingLoop_woken`, `tick_idleLast` and `idle_runs_last`.
-/

set_option autoImplicit false

namespace OSCompas.Kernel

open Function Runs

/-- If the idle process is current, no other process is in state `PROCESS_READY`. -/
def IdleLast (s : State) : Prop :=
  ∀ i, s.idle = some i → s.current = some i → ∀ p, p ≠ i → (s.pcb p).state ≠ .ready

/-! ## The condition -/

/-- The sleeping processes whose deadline the next tick reaches. -/
def State.due (s : State) : List Slot :=
  s.sleepQueue.nodes.filter fun p => (s.pcb p).deadline ≤ s.systemTicks + 1

/-- The PCB of `p` once the next tick is charged. -/
def State.charged (H : Helpers) (s : State) (p : Slot) : Pcb :=
  (updateProcessTimes H { s with systemTicks := s.systemTicks + 1 }).pcb p

/-- The next tick calls `scheduler_schedule`: a switch was asked for, or the slice of the current
process ends. -/
def Switches (H : Helpers) (s : State) : Prop :=
  s.schedulerRunning = true ∧ (s.needReschedule = true ∨ ∃ c ∈ s.current,
    s.config.enablePreemption = true ∧ (s.charged H c).timeSlice ≤ (s.charged H c).timeSliceUsed)

instance (H : Helpers) (s : State) : Decidable (Switches H s) := by
  delta Switches
  infer_instance

/-- A process other than the idle one is ready, or will be woken. -/
def State.Waiting (s : State) : Prop :=
  ∃ p, s.idle ≠ some p ∧ ((s.pcb p).state = .ready ∨ p ∈ s.due)

/-- A process waits, or will be woken, in front of the idle process. -/
def State.Ahead (s : State) : Prop :=
  if s.config.schedulerType = .mlfq then
    ∃ (i : Fin MAX_PRIORITY_LEVELS) (x : Slot), s.current ≠ some x ∧
      (x ∈ s.mlfq.queues i ∨ x ∈ s.due ∧ (s.pcb x).queueLevel = UInt8.ofNat i.val) ∧
      ∀ j ≤ i, ∀ k ∈ s.idle, k ∉ s.mlfq.queues j
  else ∃ x ∈ (s.readyQueue ++ if s.config.schedulerType = .other then [] else s.due).head?,
    s.idle ≠ some x

/-- The condition on the state before a tick. -/
def TickOk (H : Helpers) (s : State) : Prop :=
  if Switches H s then s.Ahead ∨ ¬ s.Waiting ∧ ∀ c ∈ s.current, s.idle ≠ some c →
    (s.pcb c).state ≠ .running
  else s.current ≠ s.idle ∨ ¬ s.Waiting

instance (s : State) : Decidable s.Waiting := by
  delta State.Waiting
  infer_instance

set_option synthInstance.maxSize 256 in
instance (s : State) : Decidable s.Ahead := by
  delta State.Ahead
  infer_instance

instance (H : Helpers) (s : State) : Decidable (TickOk H s) := by
  delta TickOk
  infer_instance

variable {H : Helpers} {s s' s₁ t : State} {l l' : List Slot} {c i k p x : Slot}

/-! ## The charge -/

/-- What `update_process_times` leaves alone. -/
structure Charged (s s' : State) : Prop where
  config : s'.config = s.config
  current : s'.current = s.current
  idle : s'.idle = s.idle
  asked : s'.needReschedule = s.needReschedule
  scheduling : s'.schedulerRunning = s.schedulerRunning
  ticks : s'.systemTicks = s.systemTicks
  queue : s'.readyQueue = s.readyQueue
  sleepers : s'.sleepQueue = s.sleepQueue
  state : ∀ p, (s'.pcb p).state = (s.pcb p).state
  deadline : ∀ p, (s'.pcb p).deadline = (s.pcb p).deadline
  other : ∀ p, s.current ≠ some p → s'.pcb p = s.pcb p
  levels : ∀ p i, s.current ≠ some p ∨ s.idle = some p →
    (p ∈ s'.mlfq.queues i ↔ p ∈ s.mlfq.queues i)

theorem Charged.refl (s : State) : Charged s s := by
  constructor <;> intros <;> rfl

/-- The counters of the current process are written. -/
theorem Charged.setPcb (h : Charged s s') (hc : s.current = some c) {f : Pcb → Pcb}
    (hst : (f (s'.pcb c)).state = (s'.pcb c).state)
    (hd : (f (s'.pcb c)).deadline = (s'.pcb c).deadline) : Charged s (s'.setPcb c f) where
  config := h.config
  current := h.current
  idle := h.idle
  asked := h.asked
  scheduling := h.scheduling
  ticks := h.ticks
  queue := h.queue
  sleepers := h.sleepers
  state p := by
    by_cases hpc : p = c
    · subst hpc
      rw [setPcb_self, hst, h.state]
    · rw [setPcb_of_ne _ _ hpc, h.state]
  deadline p := by
    by_cases hpc : p = c
    · subst hpc
      rw [setPcb_self, hd, h.deadline]
    · rw [setPcb_of_ne _ _ hpc, h.deadline]
  other p hp := by
    have hpc : p ≠ c := fun he => hp (he ▸ hc)
    rw [setPcb_of_ne _ _ hpc, h.other p hp]
  levels := h.levels

theorem updateProcessTimes_charged (hH : H.Complete) (s : State) :
    Charged s (updateProcessTimes H s) := by
  apply updateProcessTimes_induction (P := Charged s) (.refl s)
  · intro c u f hc _ hf hu
    exact hu.setPcb hc (hf _).1 (hf _).2
  · intro c u hc hci hu
    have h1 : Charged s { u with mlfq := (H.mlfqAdjustPriority u.mlfq c (u.pcb c) true).1 } := by
      refine { hu with levels := ?_ }
      intro p i hp
      have hpc : p ≠ c := by
        rintro rfl
        exact hp.elim (fun h => h hc) hci
      exact (hH.mlfqAdjustPriority_other _ _ _ _ _ _ hpc).trans (hu.levels p i hp)
    exact h1.setPcb hc (hH.mlfqAdjustPriority_state _ _ _ _)
      (hH.mlfqAdjustPriority_deadline _ _ _ _)

/-! ## The sleepers -/

/-- What `check_sleeping_processes` does when it wakes the processes in `l`. -/
structure Woken (s s' : State) (l : List Slot) : Prop where
  config : s'.config = s.config
  current : s'.current = s.current
  idle : s'.idle = s.idle
  asked : s'.needReschedule = s.needReschedule
  scheduling : s'.schedulerRunning = s.schedulerRunning
  ticks : s'.systemTicks = s.systemTicks
  pcb : ∀ p, s'.pcb p = if p ∈ l then { s.pcb p with state := .ready } else s.pcb p
  queue : s.config.schedulerType ≠ .mlfq →
    s'.readyQueue = s.readyQueue ++ if s.config.schedulerType = .other then [] else l
  keeps : ∀ x i, x ∈ s.mlfq.queues i → x ∈ s'.mlfq.queues i
  other : ∀ x i, x ∉ l → x ∈ s'.mlfq.queues i → x ∈ s.mlfq.queues i
  joins : s.config.schedulerType = .mlfq → ∀ x i, x ∈ l →
    (s.pcb x).queueLevel = UInt8.ofNat i.val → x ∈ s'.mlfq.queues i

theorem Woken.nil (s : State) : Woken s s [] := by
  constructor <;> simp

theorem Woken.append (h : Woken s s₁ l) (h' : Woken s₁ t l') : Woken s t (l ++ l') where
  config := h'.config.trans h.config
  current := h'.current.trans h.current
  idle := h'.idle.trans h.idle
  asked := h'.asked.trans h.asked
  scheduling := h'.scheduling.trans h.scheduling
  ticks := h'.ticks.trans h.ticks
  pcb p := by
    rw [h'.pcb, h.pcb]
    by_cases hl : p ∈ l <;> by_cases hl' : p ∈ l' <;> simp [hl, hl']
  queue ht := by
    rw [h'.queue (by rw [h.config]; exact ht), h.queue ht, h.config]
    split <;> simp
  keeps x i hx := h'.keeps x i (h.keeps x i hx)
  other x i hl hx := by
    rw [List.mem_append, not_or] at hl
    exact h.other x i hl.1 (h'.other x i hl.2 hx)
  joins ht x i hl hlevel := by
    rcases List.mem_append.mp hl with hl | hl
    · exact h'.keeps x i (h.joins ht x i hl hlevel)
    · refine h'.joins (by rw [h.config]; exact ht) x i hl ?_
      rw [h.pcb]
      split
      · exact hlevel
      · exact hlevel

/-- One process is made ready and queued. -/
theorem woken_one (hH : H.Complete) (s : State) (p : Slot) (w : WaitQueue) :
    Woken s (addToReadyQueueInternal H (State.setState H { s with sleepQueue := w } p .ready) p)
      [p] := by
  set t : State := State.setState H { s with sleepQueue := w } p .ready with ht
  have hpcb : ∀ q, t.pcb q = if q ∈ [p] then { s.pcb q with state := .ready } else s.pcb q := by
    intro q
    rw [ht, State.setState]
    by_cases hqp : q = p
    · subst hqp
      rw [setPcb_self, hH.pcbSetState_eq, if_pos (by simp)]
      rfl
    · rw [setPcb_of_ne _ _ hqp, if_neg (by simpa using hqp)]
      rfl
  have hready : (t.pcb p).state = .ready := by
    rw [hpcb, if_pos (by simp)]
  have hlevel : (t.pcb p).queueLevel = (s.pcb p).queueLevel := by
    rw [hpcb, if_pos (by simp)]
  unfold addToReadyQueueInternal
  rw [if_neg (by rw [hready]; simp)]
  have hconfig : t.config = s.config := rfl
  rw [hconfig]
  cases hs : s.config.schedulerType with
  | mlfq =>
    refine ⟨rfl, rfl, rfl, rfl, rfl, rfl, hpcb, fun h => absurd hs h, ?_, ?_, ?_⟩
    · intro x i hx
      exact hH.mlfqEnqueue_keeps _ _ _ _ _ hx
    · intro x i hl hx
      exact hH.mlfqEnqueue_other _ _ _ _ _ (by simpa using hl) hx
    · intro _ x i hl hi
      rw [List.mem_singleton] at hl
      subst hl
      show x ∈ (H.mlfqEnqueue s.mlfq x (t.pcb x).queueLevel).queues i
      rw [hlevel, hi, hH.mlfqEnqueue_append, update_self]
      simp
  | rr =>
    refine ⟨rfl, rfl, rfl, rfl, rfl, rfl, hpcb, fun _ => ?_, fun _ _ => id, fun _ _ _ => id,
      fun h => by simp [hs] at h⟩
    rw [hs, if_neg (by simp)]
    exact hH.readyQueueEnqueue_append _ _
  | fifo =>
    refine ⟨rfl, rfl, rfl, rfl, rfl, rfl, hpcb, fun _ => ?_, fun _ _ => id, fun _ _ _ => id,
      fun h => by simp [hs] at h⟩
    rw [hs, if_neg (by simp)]
    exact hH.readyQueueEnqueue_append _ _
  | other =>
    refine ⟨rfl, rfl, rfl, rfl, rfl, rfl, hpcb, fun _ => ?_, fun _ _ => id, fun _ _ _ => id,
      fun h => by simp [hs] at h⟩
    rw [hs, if_pos rfl, List.append_nil]
    rfl

/-- **The loop wakes the processes whose deadline has passed.** -/
theorem checkSleepingLoop_woken (hH : H.Complete) (kept : List Slot) :
    Woken s (checkSleepingLoop H s kept l)
      (l.filter fun p => (s.pcb p).deadline ≤ s.systemTicks) := by
  induction l generalizing s kept with
  | nil => exact .nil s
  | cons p rest ih =>
    unfold checkSleepingLoop
    by_cases hd : (s.pcb p).deadline ≤ s.systemTicks
    · rw [if_pos hd, List.filter_cons_of_pos (by simpa using hd)]
      have h1 := woken_one hH s p { s.sleepQueue with
        nodes := kept ++ rest
        tail := if rest = [] then kept.getLast? else s.sleepQueue.tail }
      have h2 := h1.append (ih (s := _) kept)
      convert h2 using 2
      rw [List.singleton_append]
      congr 1
      apply List.filter_congr
      intro q _
      rw [h1.pcb, h1.ticks]
      split <;> rfl
    · rw [if_neg hd, List.filter_cons_of_neg (by simpa using hd)]
      exact ih _

/-! ## The switch -/

/-- The pick is not the idle process if somebody is in front of it. -/
theorem pick_ahead (hH : H.Documented)
    (ha : if s.config.schedulerType = .mlfq then
        ∃ i x, x ∈ s.mlfq.queues i ∧ ∀ j ≤ i, k ∉ s.mlfq.queues j
      else ∃ x ∈ s.readyQueue.head?, x ≠ k) :
    ∃ y, (getNextProcess H s).2 = some y ∧ y ≠ k := by
  have hqueue : (∃ x ∈ s.readyQueue.head?, x ≠ k) →
      ∃ y, (H.readyQueueDequeue s.readyQueue).1 = some y ∧ y ≠ k := by
    rintro ⟨x, hx, hne⟩
    rw [hH.readyQueueDequeue_pop]
    exact ⟨x, hx, hne⟩
  unfold getNextProcess
  cases ht : s.config.schedulerType with
  | mlfq =>
    rw [if_pos ht] at ha
    obtain ⟨i, x, hx, hk⟩ := ha
    rcases hH.mlfqDequeue_pop s.mlfq with ⟨hnone, -⟩ | ⟨i', y, ys, hi', hy, he⟩
    · exact absurd hnone (Mlfq.firstLevel_isSome hx)
    · refine ⟨y, by simp only [he], ?_⟩
      rintro rfl
      -- the first level with a process is not below the level of `x`
      have hle : i' ≤ i := by
        by_contra hlt
        rw [Mlfq.firstLevel_least hi' (not_le.mp hlt)] at hx
        exact absurd hx List.not_mem_nil
      exact hk i' hle (by simp [hy])
  | rr => exact hqueue (by rwa [if_neg (by simp [ht])] at ha)
  | fifo => exact hqueue (by rwa [if_neg (by simp [ht])] at ha)
  | other => exact hqueue (by rwa [if_neg (by simp [ht])] at ha)

/-- A dispatch writes the PCB of the new process only. -/
theorem dispatch_state (hH : H.Documented) (s : State) (x p : Slot) :
    ((dispatch H s x).pcb p).state = if p = x then .running else (s.pcb p).state := by
  unfold dispatch
  dsimp only
  set a : State := State.setPcb (s.setState H x .running) x _ with ha
  obtain ⟨l, hl⟩ := remove_eq (H := H) a x
  rw [hl]
  show (a.pcb p).state = _
  rw [ha]
  by_cases hpx : p = x
  · subst hpx
    rw [if_pos rfl, setPcb_self]
    exact (congrArg Pcb.state (setPcb_self s p _)).trans (hH.pcbSetState_state _ _)
  · rw [if_neg hpx, setPcb_of_ne _ _ hpx]
    exact congrArg Pcb.state (setPcb_of_ne s _ hpx)

/-- The pick becomes the current process. -/
theorem schedule_pick (hrun : s.schedulerRunning = true)
    (hp : (getNextProcess H s).2 = some x) (h : schedule H s = some s') : s'.current = some x := by
  obtain ⟨hno, -⟩ | ⟨hc, rfl⟩ | ⟨y, hy, -, rfl⟩ := schedule_cases h
  · rw [hrun] at hno
    cases hno
  · rw [hp, Option.some_or] at hc
    exact (getNextProcess_frame s).2.1.trans hc
  · rw [hp, Option.some_or] at hy
    exact hy.symm

/-- Only the process that ran is made ready. -/
theorem putBack_ready (hr : ((putBack H s).pcb p).state = .ready) :
    (s.pcb p).state = .ready ∨
      s.current = some p ∧ s.idle ≠ some p ∧ (s.pcb p).state = .running := by
  unfold putBack at hr
  split at hr
  · exact .inl hr
  · rename_i c hc
    split at hr
    · exact .inl hr
    · rename_i hci
      split at hr
      · rename_i hrun
        by_cases hpc : p = c
        · subst hpc
          exact .inr ⟨hc, hci, hrun⟩
        · unfold State.pcb at hr
          rw [add_table] at hr
          exact .inl ((congrArg Pcb.state (setPcb_of_ne s _ hpc)).symm.trans hr)
      · exact .inl hr

/-- A switch makes nobody ready but the process it takes the CPU from. -/
theorem schedule_ready (hH : H.Complete) (h : schedule H s = some s')
    (hr : (s'.pcb p).state = .ready) : (s.pcb p).state = .ready ∨
      s.current = some p ∧ s.idle ≠ some p ∧ (s.pcb p).state = .running := by
  obtain ⟨htable, hcur, hidle⟩ := getNextProcess_frame (H := H) s
  obtain ⟨-, rfl⟩ | ⟨-, rfl⟩ | ⟨x, -, -, rfl⟩ := schedule_cases h
  · exact .inl hr
  · left
    unfold State.pcb at hr ⊢
    rwa [htable] at hr
  · generalize ha : (getNextProcess H s).1.switched = a at hr
    have hpcb : ∀ q, a.pcb q = s.pcb q := by
      intro q
      show a.table.processes q = s.table.processes q
      rw [← htable, ← ha]
      rfl
    have hcur' : a.current = s.current := ha ▸ hcur
    have hidle' : a.idle = s.idle := ha ▸ hidle
    rw [dispatch_state hH.toDocumented] at hr
    split at hr
    · exact nomatch hr
    rcases putBack_ready hr with hr | ⟨hc, hci, hrun⟩
    · rw [hpcb] at hr
      exact .inl hr
    · rw [hcur'] at hc
      rw [hidle'] at hci
      rw [hpcb] at hrun
      exact .inr ⟨hc, hci, hrun⟩

/-! ## The tick -/

/-- The tick up to the question whether to switch. -/
theorem tick_woken (hH : H.Complete) (h : tickHandler H s = some s') : ∃ s₂ t,
    Charged { s with systemTicks := s.systemTicks + 1 } s₂ ∧
    (∀ c, s₂.pcb c = s.charged H c) ∧ Woken s₂ t s.due ∧
    ((t.needReschedule = true ∨ ∃ c ∈ t.current, t.config.enablePreemption = true ∧
        (t.pcb c).timeSlice ≤ (t.pcb c).timeSliceUsed) ∧
        schedule H { t with needReschedule := true } = some s' ∨
      ¬ (t.needReschedule = true ∨ ∃ c ∈ t.current, t.config.enablePreemption = true ∧
        (t.pcb c).timeSlice ≤ (t.pcb c).timeSliceUsed) ∧ s' = t) := by
  obtain ⟨t, ht, h⟩ := tickHandler_cases h
  have h2 := updateProcessTimes_charged hH { s with systemTicks := s.systemTicks + 1 }
  set s₂ := updateProcessTimes H { s with systemTicks := s.systemTicks + 1 } with hs₂
  have h3 := checkSleepingLoop_woken (s := s₂) (l := s₂.sleepQueue.nodes) hH []
  have hdue : (s₂.sleepQueue.nodes.filter fun p => (s₂.pcb p).deadline ≤ s₂.systemTicks) =
      s.due := by
    unfold State.due
    rw [h2.sleepers]
    apply List.filter_congr
    intro p _
    rw [h2.deadline, h2.ticks]
    rfl
  rw [hdue] at h3
  obtain ⟨st, sc, hst⟩ := updateSchedulerStats_eq ht
  have hw : Woken s₂ t s.due := by
    rw [hst]
    exact ⟨h3.config, h3.current, h3.idle, h3.asked, h3.scheduling, h3.ticks, h3.pcb, h3.queue,
      h3.keeps, h3.other, h3.joins⟩
  exact ⟨s₂, t, h2, fun _ => rfl, hw, h⟩

/-- Who is in front of the idle process before the tick is so when the tick picks. -/
theorem ahead_woken (haway : IdleAway i s)
    (h2 : Charged { s with systemTicks := s.systemTicks + 1 } s') (h3 : Woken s' t s.due)
    (ha : s.Ahead) : if t.config.schedulerType = .mlfq then
      ∃ j x, x ∈ t.mlfq.queues j ∧ ∀ j' ≤ j, i ∉ t.mlfq.queues j'
    else ∃ x ∈ t.readyQueue.head?, x ≠ i := by
  obtain ⟨hidle, -, hsleep⟩ := haway
  have hnd : i ∉ s.due := fun h => hsleep (List.mem_of_mem_filter h)
  have hconfig : t.config = s.config := h3.config.trans h2.config
  unfold State.Ahead at ha
  rw [hconfig]
  by_cases ht : s.config.schedulerType = .mlfq
  · rw [if_pos ht] at ha ⊢
    obtain ⟨j, x, hx, hmem, hk⟩ := ha
    refine ⟨j, x, ?_, ?_⟩
    · rcases hmem with hmem | ⟨hd, hlevel⟩
      · exact h3.keeps x j ((h2.levels x j (.inl hx)).mpr hmem)
      · refine h3.joins (by rw [h2.config]; exact ht) x j hd ?_
        rw [h2.other x hx]
        exact hlevel
    · intro j' hj' hi
      have hi₂ := h3.other i j' hnd hi
      exact hk j' hj' i hidle ((h2.levels i j' (.inr hidle)).mp hi₂)
  · rw [if_neg ht] at ha ⊢
    obtain ⟨x, hx, hne⟩ := ha
    rw [h3.queue (by rw [h2.config]; exact ht), h2.queue, h2.config]
    refine ⟨x, hx, ?_⟩
    rintro rfl
    exact hne hidle

/-- **After a tick under the condition the idle process is current only if nobody is ready.** -/
theorem tick_idleLast (hH : H.Complete) (haway : IdleAway i s) (hok : TickOk H s)
    (h : tickHandler H s = some s') : IdleLast s' := by
  have hidle := haway.1
  obtain ⟨s₂, t, h2, hcharged, h3, hend⟩ := tick_woken hH h
  have hcur : t.current = s.current := h3.current.trans h2.current
  have hidle' : t.idle = some i := (h3.idle.trans h2.idle).trans hidle
  have hstate : ∀ p, (t.pcb p).state = if p ∈ s.due then .ready else (s.pcb p).state := by
    intro p
    rw [h3.pcb]
    split
    · rfl
    · exact h2.state p
  have hready : ∀ p, (t.pcb p).state = .ready → (s.pcb p).state = .ready ∨ p ∈ s.due := by
    intro p hp
    rw [hstate] at hp
    by_cases hd : p ∈ s.due
    · exact .inr hd
    · rw [if_neg hd] at hp
      exact .inl hp
  have hrunning : ∀ p, (t.pcb p).state = .running → (s.pcb p).state = .running := by
    intro p hp
    rw [hstate] at hp
    split at hp
    · exact nomatch hp
    · exact hp
  have hslice : ∀ c, (t.pcb c).timeSlice ≤ (t.pcb c).timeSliceUsed ↔
      (s.charged H c).timeSlice ≤ (s.charged H c).timeSliceUsed := by
    intro c
    rw [h3.pcb, ← hcharged]
    split <;> rfl
  have hcond : (t.needReschedule = true ∨ ∃ c ∈ t.current, t.config.enablePreemption = true ∧
      (t.pcb c).timeSlice ≤ (t.pcb c).timeSliceUsed) ↔
      (s.needReschedule = true ∨ ∃ c ∈ s.current, s.config.enablePreemption = true ∧
        (s.charged H c).timeSlice ≤ (s.charged H c).timeSliceUsed) := by
    rw [h3.asked, h2.asked, hcur, h3.config, h2.config]
    simp only [hslice]
  -- nobody waits: a process that is ready after the tick lost the CPU in it
  have hnone : ¬ s.Waiting → ∀ p, p ≠ i → (t.pcb p).state ≠ .ready := by
    intro hw p hpi hp
    apply hw
    refine ⟨p, ?_, hready p hp⟩
    rw [hidle]
    exact fun he => hpi (Option.some.inj he).symm
  have hstay : s.current ≠ s.idle ∨ ¬ s.Waiting → IdleLast t := by
    rintro (hne | hw) k hk hc p hpk
    · rw [hidle'] at hk
      exact absurd (hcur.symm.trans (hc.trans (hk.symm.trans hidle.symm))) hne
    · rw [hidle'] at hk
      obtain rfl := Option.some.inj hk
      exact hnone hw p hpk
  unfold TickOk at hok
  rcases hend with ⟨hsw, hs⟩ | ⟨hsw, rfl⟩
  · by_cases hrun : s.schedulerRunning = true
    · rw [if_pos ⟨hrun, hcond.mp hsw⟩] at hok
      have hrun' : t.schedulerRunning = true := (h3.scheduling.trans h2.scheduling).trans hrun
      intro k hk hc p hpk
      obtain rfl : k = i := by
        have hkeep := ((Calm.refl i t).reschedule hH.toDocumented hidle' hs).idle
        exact Option.some.inj (hk.symm.trans (hkeep.trans hidle'))
      rcases hok with ha | ⟨hw, hno⟩
      · have hahead := ahead_woken haway h2 h3 ha
        obtain ⟨y, hy, hyk⟩ := pick_ahead (s := { t with needReschedule := true }) (k := k)
          hH.toDocumented hahead
        have hcy := schedule_pick (s := { t with needReschedule := true }) hrun' hy hs
        exact absurd (Option.some.inj (hcy.symm.trans hc)) hyk
      · intro hp
        rcases schedule_ready hH hs hp with hp | ⟨hpc, hpi, hp⟩
        · exact hnone hw p hpk hp
        · refine hno p (hcur.symm.trans hpc) ?_ (hrunning p hp)
          rw [hidle]
          exact fun he => hpk (Option.some.inj he).symm
    · rw [if_neg fun h => hrun h.1] at hok
      unfold schedule at hs
      have hstop : t.schedulerRunning = false := by
        rw [h3.scheduling, h2.scheduling]
        simpa using hrun
      rw [if_pos hstop] at hs
      cases hs
      exact hstay hok
  · rw [if_neg fun h => hsw (hcond.mpr h.2)] at hok
    exact hstay hok

/-- **The idle process runs last**, after every tick that finds the condition, in every run. -/
theorem idle_runs_last (hH : H.Complete) {statics : Statics} {config : Option Config}
    (hrun : Reaches (Step H) anyAction (schedulerInit H statics config) s) (hok : TickOk H s)
    (htick : Step H s .tick s') : IdleLast s' := by
  obtain ⟨i, hinit, -⟩ := schedulerInit_idle hH statics config
  have haway : IdleAway i s := by
    apply hrun.invariant (I := IdleAway i) hinit
    intro s op s' hs _ h
    exact step_away hH.toDocumented hs h
  exact tick_idleLast hH haway hok htick

theorem idle_runs_last_run : ∃ s s', s.current = some 1 ∧ s'.current = some 2 ∧
    TickOk listHelpers s ∧ Step listHelpers s .tick s' ∧ IdleLast s' := by
  have hx : ((exec (step listHelpers) (fun _ _ => true)
      (schedulerInit listHelpers ⟨0, 0, 0, 0⟩ (some ⟨.rr, 1, true, false, 4, 1000, 500⟩))
      [.schedule, .create [] .user 0 0, .create [] .user 0 0, .yield]).bind fun s =>
        (step listHelpers s .tick).map fun s' =>
          (s.current, s'.current, decide (TickOk listHelpers s))) =
        some (some 1, some 2, true) := by
    decide +kernel
  obtain ⟨s, h, hx⟩ := Option.bind_eq_some_iff.mp hx
  obtain ⟨s', htick, hobs⟩ := Option.map_eq_some_iff.mp hx
  simp only [Prod.mk.injEq, decide_eq_true_eq] at hobs
  obtain ⟨hc, hc', hok⟩ := hobs
  exact ⟨s, s', hc, hc', hok, htick,
    idle_runs_last listHelpers_complete (anyRun_of_exec h) hok htick⟩

/-- A process is created while the idle process runs, and the timer ticks. -/
theorem idle_keeps_cpu : ¬ ∀ (H : Helpers) (statics : Statics) (config : Option Config)
    (s s' : State), H.Complete → (config.getD defaultConfig).enablePreemption = true →
    Reaches (Step H) anyAction (schedulerInit H statics config) s → Step H s .tick s' →
    IdleLast s' := by
  intro hall
  have hx : ((exec (step listHelpers) (fun _ _ => true)
      (schedulerInit listHelpers ⟨0, 0, 0, 0⟩ none) [.create [] .user 0 0]).bind fun s =>
        (step listHelpers s .tick).map fun s' =>
          (s'.idle, s'.current, (s'.pcb 1).state)) = some (some 0, some 0, .ready) := by
    decide +kernel
  obtain ⟨s, h, hx⟩ := Option.bind_eq_some_iff.mp hx
  obtain ⟨s', htick, hobs⟩ := Option.map_eq_some_iff.mp hx
  simp only [Prod.mk.injEq] at hobs
  obtain ⟨hi, hc, hr⟩ := hobs
  exact hall listHelpers _ none s s' listHelpers_complete rfl (anyRun_of_exec h) htick 0 hi hc 1
    (by decide) hr

end OSCompas.Kernel
