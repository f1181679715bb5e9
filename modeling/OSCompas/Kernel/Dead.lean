import OSCompas.Kernel.Helpers

/-!
# Once dead, always dead

`scheduler_terminate_process` makes a process a zombie but leaves it in the wait queue, in the
sleep queue and, under MLFQ, in its ready queue, from where it is made ready or running again.

* `Alive`, `Refers` — an allocated slot that is not dead, and the places that lead to a slot;
* `Sound` — whatever is referred to is alive;
* `Gone` — neither alive nor ready nor running;
* `Safe` — a step that buries nobody and wakes no dead;
* `KillGuard` — the condition.

Principal results: `step_sound`, `dead_stays_dead` and `dead_runs`.
-/

set_option autoImplicit false

namespace OSCompas.Kernel

open Function Runs

/-- The slot is allocated to a process that has not ended. -/
def Alive (s : State) (p : Slot) : Prop :=
  s.table.allocated p = true ∧ (s.pcb p).state ≠ .zombie ∧ (s.pcb p).state ≠ .terminated

/-- The ready structure of the policy holds `p`. -/
def State.Waits (s : State) (p : Slot) : Prop :=
  if s.config.schedulerType = .mlfq then ∃ i, p ∈ s.mlfq.queues i else p ∈ s.readyQueue

/-- The places from where a process is made ready or running. -/
def Refers (s : State) (p : Slot) : Prop :=
  s.Waits p ∨ p ∈ s.waitQueue.nodes ∨ p ∈ s.sleepQueue.nodes ∨ s.current = some p ∨
    s.idle = some p

def Sound (s : State) : Prop := ∀ p, Refers s p → Alive s p

/-- The process has ended. -/
def Dead (s : State) (p : Slot) : Prop :=
  (s.pcb p).state = .zombie ∨ (s.pcb p).state = .terminated

def Gone (s : State) (p : Slot) : Prop :=
  ¬ Alive s p ∧ (s.pcb p).state ≠ .ready ∧ (s.pcb p).state ≠ .running

instance (s : State) (p : Slot) : Decidable (s.Waits p) := by
  delta State.Waits
  infer_instance

variable {H : Helpers} {s s' s'' s₁ s₂ : State} {p q x c : Slot} {f : Pcb → Pcb} {op : Op}

theorem Dead.gone (h : Dead s p) : Gone s p := by
  refine ⟨fun ha => ?_, ?_, ?_⟩
  · exact h.elim ha.2.1 ha.2.2
  · rcases h with h | h <;> simp [h]
  · rcases h with h | h <;> simp [h]

theorem ready_live : ProcessState.ready ≠ .zombie ∧ ProcessState.ready ≠ .terminated := by
  decide

theorem alive_of_ready (ha : s.table.allocated p = true) (hr : (s.pcb p).state = .ready) :
    Alive s p := by
  refine ⟨ha, ?_⟩
  rw [hr]
  exact ready_live

/-! ## Steps that bury nobody -/

/-- The same processes are alive, only they are referred to, and the others stay as they are. -/
structure Safe (s s' : State) : Prop where
  alive : ∀ p, Alive s' p ↔ Alive s p
  refers : ∀ p, Refers s' p → Refers s p ∨ Alive s p
  gone : ∀ p, Gone s p → Gone s' p

theorem Safe.refl (s : State) : Safe s s := ⟨fun _ => Iff.rfl, fun _ => .inl, fun _ => id⟩

theorem Safe.trans (h : Safe s s') (h' : Safe s' s'') : Safe s s'' := by
  refine ⟨fun p => (h'.alive p).trans (h.alive p), fun p hp => ?_, fun p hp =>
    h'.gone p (h.gone p hp)⟩
  rcases h'.refers p hp with hp | hp
  · exact h.refers p hp
  · exact .inr ((h.alive p).mp hp)

theorem Safe.sound (h : Safe s s') (hs : Sound s) : Sound s' := fun p hp =>
  (h.alive p).mpr ((h.refers p hp).elim (hs p) id)

/-- The process table stays. -/
theorem Safe.of_table (ht : s'.table = s.table)
    (hr : ∀ p, Refers s' p → Refers s p ∨ Alive s p) : Safe s s' := by
  have halive : ∀ p, Alive s' p ↔ Alive s p := fun p => by
    unfold Alive State.pcb
    rw [ht]
  refine ⟨halive, hr, fun p hp => ?_⟩
  unfold Gone State.pcb at hp ⊢
  rw [ht, halive]
  exact hp

theorem setPcb_alive_of_ne (h : q ≠ p) : Alive (s.setPcb p f) q ↔ Alive s q := by
  unfold Alive
  rw [setPcb_of_ne _ _ h]
  rfl

theorem setPcb_gone_of_ne (h : q ≠ p) : Gone (s.setPcb p f) q ↔ Gone s q := by
  unfold Gone
  rw [setPcb_alive_of_ne h, setPcb_of_ne _ _ h]

/-- A process that is alive gets another state in which it is. -/
theorem Safe.setPcb (hp : Alive s p)
    (hf : (f (s.pcb p)).state ≠ .zombie ∧ (f (s.pcb p)).state ≠ .terminated) :
    Safe s (s.setPcb p f) := by
  refine ⟨fun q => ?_, fun _ => .inl, fun q hq => ?_⟩
  · by_cases hqp : q = p
    · subst hqp
      refine iff_of_true ⟨hp.1, ?_⟩ hp
      rw [setPcb_self]
      exact hf
    · exact setPcb_alive_of_ne hqp
  · have hqp : q ≠ p := fun he => hq.1 (he ▸ hp)
    exact (setPcb_gone_of_ne hqp).mpr hq

/-- Any process gets other fields and keeps its state. -/
theorem Safe.setFields (s : State) (p : Slot) (hf : ∀ q, (f q).state = q.state) :
    Safe s (s.setPcb p f) := by
  have hstate : ∀ q, ((s.setPcb p f).pcb q).state = (s.pcb q).state := fun q => by
    by_cases hqp : q = p
    · subst hqp
      rw [setPcb_self, hf]
    · rw [setPcb_of_ne s f hqp]
  have halive : ∀ q, Alive (s.setPcb p f) q ↔ Alive s q := fun q => by
    unfold Alive
    rw [hstate]
    rfl
  refine ⟨halive, fun _ => .inl, fun q hq => ?_⟩
  unfold Gone at hq ⊢
  rw [halive, hstate]
  exact hq

theorem Safe.setState (hH : H.Documented) {st : ProcessState} (hp : Alive s p)
    (hst : st ≠ .zombie ∧ st ≠ .terminated) : Safe s (s.setState H p st) :=
  .setPcb hp (by rw [hH.pcbSetState_state]; exact hst)

theorem Safe.setCurrent (hp : Alive s p) : Safe s { s with current := some p } := by
  refine .of_table rfl ?_
  rintro q (h | h | h | h | h)
  · exact .inl (.inl h)
  · exact .inl (.inr (.inl h))
  · exact .inl (.inr (.inr (.inl h)))
  · exact .inr (Option.some.inj h ▸ hp)
  · exact .inl (.inr (.inr (.inr (.inr h))))

theorem Safe.waitQueue {w : WaitQueue} (h : ∀ p ∈ w.nodes, p ∈ s.waitQueue.nodes ∨ Alive s p) :
    Safe s { s with waitQueue := w } := by
  refine .of_table rfl ?_
  rintro q (hq | hq | hq)
  · exact .inl (.inl hq)
  · exact (h q hq).imp (fun hq => .inr (.inl hq)) id
  · exact .inl (.inr (.inr hq))

theorem Safe.sleepQueue {w : WaitQueue} (h : ∀ p ∈ w.nodes, p ∈ s.sleepQueue.nodes ∨ Alive s p) :
    Safe s { s with sleepQueue := w } := by
  refine .of_table rfl ?_
  rintro q (hq | hq | hq | hq)
  · exact .inl (.inl hq)
  · exact .inl (.inr (.inl hq))
  · exact (h q hq).imp (fun hq => .inr (.inr (.inl hq))) id
  · exact .inl (.inr (.inr (.inr hq)))

/-! ## Ready structures -/

/-- Only the ready structure changes, by processes that are alive. -/
theorem Safe.ready {m : Mlfq} {l : List Slot}
    (h : ∀ p, State.Waits { s with mlfq := m, readyQueue := l } p → s.Waits p ∨ Alive s p) :
    Safe s { s with mlfq := m, readyQueue := l } := by
  refine .of_table rfl ?_
  rintro q (hq | hq)
  · exact (h q hq).imp .inl id
  · exact .inl (.inr hq)

theorem Safe.add (hH : H.Documented) (hp : Alive s p) :
    Safe s (addToReadyQueueInternal H s p) := by
  have hmem : ∀ (q : Slot) (l : List Slot), q ∈ H.readyQueueEnqueue l p → q ∈ l ∨ q = p := by
    intro q l hq
    rw [hH.readyQueueEnqueue_append, List.mem_append, List.mem_singleton] at hq
    exact hq
  unfold addToReadyQueueInternal
  split
  · exact .refl s
  · cases ht : s.config.schedulerType with
    | mlfq =>
      refine .ready (l := s.readyQueue) fun q hq => ?_
      unfold State.Waits at hq ⊢
      rw [if_pos ht] at hq ⊢
      obtain ⟨i, hi⟩ := hq
      rcases hH.mlfqEnqueue_mem _ _ _ _ _ hi with rfl | hold
      · exact .inr hp
      · exact .inl hold
    | rr =>
      refine .ready (m := s.mlfq) fun q hq => ?_
      unfold State.Waits at hq ⊢
      rw [if_neg (by simp [ht])] at hq ⊢
      exact (hmem q _ hq).imp id fun (he : q = p) => he ▸ hp
    | fifo =>
      refine .ready (m := s.mlfq) fun q hq => ?_
      unfold State.Waits at hq ⊢
      rw [if_neg (by simp [ht])] at hq ⊢
      exact (hmem q _ hq).imp id fun (he : q = p) => he ▸ hp
    | other => exact .refl s

theorem Safe.remove (hH : H.Documented) (s : State) (p : Slot) :
    Safe s (removeFromReadyQueueInternal H s p) := by
  have hready : ∀ l, (∀ q ∈ l, q ∈ s.readyQueue) → Safe s { s with readyQueue := l } :=
    fun l hl => .ready (m := s.mlfq) fun q hq => by
      unfold State.Waits at hq ⊢
      split at hq
      · rename_i ht
        rw [if_pos ht]
        exact .inl hq
      · rename_i ht
        rw [if_neg ht]
        exact .inl (hl q hq)
  unfold removeFromReadyQueueInternal
  split
  · exact .refl s
  · exact hready _ fun q hq => ((hH.readyQueueRemove_mem _ _ _).mp hq).1
  · exact hready _ fun q hq => ((hH.readyQueueRemove_mem _ _ _).mp hq).1
  · exact .refl s

/-- What is taken off the ready structure was in it. -/
theorem getNextProcess_safe (hH : H.Documented) (s : State) : Safe s (getNextProcess H s).1 ∧
    ∀ x, (getNextProcess H s).2 = some x → Refers s x := by
  have hpop : s.config.schedulerType ≠ .mlfq →
      Safe s { s with readyQueue := (H.readyQueueDequeue s.readyQueue).2 } ∧
        ∀ x, (H.readyQueueDequeue s.readyQueue).1 = some x → Refers s x := fun ht => by
    rw [hH.readyQueueDequeue_pop]
    refine ⟨.ready (m := s.mlfq) fun q hq => ?_, fun x hx => .inl ?_⟩
    · unfold State.Waits at hq ⊢
      rw [if_neg ht] at hq ⊢
      exact .inl (List.mem_of_mem_tail hq)
    · unfold State.Waits
      rw [if_neg ht]
      exact List.mem_of_head? hx
  unfold getNextProcess
  cases ht : s.config.schedulerType with
  | mlfq =>
    rcases hH.mlfqDequeue_pop s.mlfq with ⟨-, he⟩ | ⟨i, x, xs, -, hi, he⟩
    · simp only [he]
      exact ⟨.refl s, nofun⟩
    · simp only [he]
      refine ⟨.ready (l := s.readyQueue) fun q hq => .inl ?_, fun y hy => .inl ?_⟩
      · unfold State.Waits at hq ⊢
        rw [if_pos ht] at hq ⊢
        obtain ⟨j, hj⟩ := hq
        refine ⟨j, ?_⟩
        by_cases hji : j = i
        · subst hji
          rw [hi]
          simp only [update_self] at hj
          exact List.mem_cons_of_mem x hj
        · simpa [hji] using hj
      · obtain rfl := Option.some.inj hy
        unfold State.Waits
        rw [if_pos ht]
        exact ⟨i, by simp [hi]⟩
  | rr => exact hpop (by simp [ht])
  | fifo => exact hpop (by simp [ht])
  | other => exact hpop (by simp [ht])

/-! ## Calls that bury nobody -/

theorem Sound.current (hs : Sound s) (hc : s.current = some c) : Alive s c :=
  hs c (.inr (.inr (.inr (.inl hc))))

theorem Sound.idle (hs : Sound s) (hc : s.idle = some c) : Alive s c :=
  hs c (.inr (.inr (.inr (.inr hc))))

theorem putBack_safe (hH : H.Documented) (hs : Sound s) : Safe s (putBack H s) := by
  unfold putBack
  split
  · exact .refl s
  · rename_i c hc
    have ha := hs.current hc
    split
    · exact .refl s
    · split
      · have h1 : Safe s (s.setState H c .ready) := .setState hH ha (by simp)
        exact h1.trans (.add hH ((h1.alive c).mpr ha))
      · exact .refl s

theorem dispatch_safe (hH : H.Documented) (hx : Alive s x) : Safe s (dispatch H s x) := by
  have h1 : Safe s (s.setState H x .running) := .setState hH hx (by simp)
  have h2 := h1.trans (.setFields _ x (f := fun q => { q with
    timeStarted := s.systemTicks, timeSliceUsed := 0 }) fun _ => rfl)
  have h3 := h2.trans (.remove hH _ x)
  have h4 := h3.trans (.setCurrent ((h3.alive x).mpr hx))
  exact h4.trans (.of_table rfl fun _ => .inl)

/-- **`scheduler_schedule` only runs what is alive.** -/
theorem schedule_safe (hH : H.Documented) (hs : Sound s) (h : schedule H s = some s') :
    Safe s s' := by
  obtain ⟨h1, hnext⟩ := getNextProcess_safe hH s
  obtain ⟨-, rfl⟩ | ⟨-, rfl⟩ | ⟨x, hx, -, rfl⟩ := schedule_cases h
  · exact .refl s'
  · exact h1
  · have hax : Alive s x := by
      rcases hr : (getNextProcess H s).2 with _ | y
      · rw [hr] at hx
        exact hs.idle hx
      · rw [hr] at hx
        obtain rfl := Option.some.inj hx
        exact hs _ (hnext _ hr)
    have h2 : Safe s (getNextProcess H s).1.switched := h1.trans (.of_table rfl fun _ => .inl)
    have h3 := h2.trans (putBack_safe hH (h2.sound hs))
    exact h3.trans (dispatch_safe hH ((h3.alive x).mpr hax))

/-- A step that buries nobody, and then a switch. -/
theorem Safe.reschedule (hH : H.Documented) (hs : Sound s) (h : Safe s s')
    (hsched : schedule H { s' with needReschedule := true } = some s'') : Safe s s'' := by
  have h1 : Safe s { s' with needReschedule := true } := h.trans (.of_table rfl fun _ => .inl)
  exact h1.trans (schedule_safe hH (h1.sound hs) hsched)

/-- The demotion of a process that is alive. -/
theorem adjust_safe (hH : H.Documented) (hc : Alive s c) :
    let r := H.mlfqAdjustPriority s.mlfq c (s.pcb c) true
    Safe s (State.setPcb { s with mlfq := r.1 } c fun _ => r.2) := by
  intro r
  have h1 : Safe s { s with mlfq := r.1 } := .ready (l := s.readyQueue) fun q hq => by
    unfold State.Waits at hq ⊢
    split at hq
    · rename_i ht
      rw [if_pos ht]
      obtain ⟨i, hi⟩ := hq
      rcases hH.mlfqAdjustPriority_mem _ _ _ _ _ _ hi with rfl | hold
      · exact .inr hc
      · exact .inl hold
    · rename_i ht
      rw [if_neg ht]
      exact .inl hq
  refine h1.trans (.setPcb ((h1.alive c).mpr hc) ?_)
  rw [hH.mlfqAdjustPriority_state]
  exact hc.2

theorem updateProcessTimes_safe (hH : H.Documented) (hs : Sound s) :
    Safe s (updateProcessTimes H s) := by
  apply updateProcessTimes_induction (P := Safe s) (.refl s)
  · intro c u f _ _ hf hu
    exact hu.trans (.setFields u c fun q => (hf q).1)
  · intro c u hc _ hu
    exact hu.trans (adjust_safe hH ((hu.alive c).mpr (hs.current hc)))

/-- The loop wakes processes that are alive. -/
theorem checkSleepingLoop_safe (hH : H.Documented) {l kept : List Slot}
    (hl : ∀ p ∈ kept ++ l, Alive s p) : Safe s (checkSleepingLoop H s kept l) := by
  induction l generalizing s kept with
  | nil => exact .refl s
  | cons p rest ih =>
    unfold checkSleepingLoop
    split
    · have hrest : ∀ q ∈ kept ++ rest, Alive s q := fun q hq => hl q (by
        rcases List.mem_append.mp hq with h | h
        · exact List.mem_append_left _ h
        · exact List.mem_append_right _ (List.mem_cons_of_mem p h))
      have hp : Alive s p := hl p (by simp)
      have h1 : Safe s { s with sleepQueue := { s.sleepQueue with
          nodes := kept ++ rest
          tail := if rest = [] then kept.getLast? else s.sleepQueue.tail } } :=
        .sleepQueue fun q hq => .inr (hrest q hq)
      have h2 := h1.trans (.setState hH ((h1.alive p).mpr hp) ready_live)
      have h3 := h2.trans (.add hH ((h2.alive p).mpr hp))
      exact h3.trans (ih fun q hq => (h3.alive q).mpr (hrest q hq))
    · exact ih fun q hq => hl q (by simpa using hq)

theorem checkSleepingProcesses_safe (hH : H.Documented) (hs : Sound s) :
    Safe s (checkSleepingProcesses H s) :=
  checkSleepingLoop_safe hH fun p hp => hs p (.inr (.inr (.inl hp)))

theorem updateSchedulerStats_safe (h : updateSchedulerStats s = some s') : Safe s s' := by
  obtain ⟨st, sc, rfl⟩ := updateSchedulerStats_eq h
  exact .of_table rfl fun _ => .inl

theorem tickHandler_safe (hH : H.Documented) (hs : Sound s) (h : tickHandler H s = some s') :
    Safe s s' := by
  obtain ⟨t, ht, h⟩ := tickHandler_cases h
  have h1 : Safe s { s with systemTicks := s.systemTicks + 1 } := .of_table rfl fun _ => .inl
  have h2 := h1.trans (updateProcessTimes_safe hH (h1.sound hs))
  have hasleep := h2.sound hs
  have h3 := h2.trans (checkSleepingProcesses_safe hH hasleep)
  have h4 := h3.trans (updateSchedulerStats_safe ht)
  rcases h with ⟨-, h⟩ | ⟨-, rfl⟩
  · exact h4.reschedule hH hs h
  · exact h4

theorem yield_safe (hH : H.Documented) (hs : Sound s) (h : yield H s = some s') : Safe s s' := by
  obtain ⟨u, ht, hu⟩ := yield_cases h
  have h1 : Safe s u := by
    rcases hu with rfl | rfl | ⟨c, rfl⟩
    · exact .refl u
    · exact .of_table rfl fun _ => .inl
    · have h1 : Safe s (s.setPcb c fun q => { q with timeInQueue := 0 }) :=
        .setFields s c fun _ => rfl
      exact h1.trans (.of_table rfl fun _ => .inl)
  exact h1.trans (schedule_safe hH (h1.sound hs) ht)

theorem blockProcess_safe (hH : H.Documented) (hs : Sound s) {r : Int32}
    (h : blockProcess H s = some (s', r)) : Safe s s' := by
  obtain rfl | ⟨c, hc, -, ht⟩ := blockProcess_cases h
  · exact .refl s'
  · have ha := hs.current hc
    have h1 : Safe s (s.setState H c .blocked) := .setState hH ha (by simp)
    have h2 := h1.trans (.waitQueue fun q hq => by
      rw [hH.waitQueueEnqueue_append, List.mem_append, List.mem_singleton] at hq
      exact hq.imp id fun (he : q = c) => (h1.alive q).mpr (he ▸ ha))
    exact h2.reschedule hH hs ht

theorem sleepProcess_safe (hH : H.Documented) (hs : Sound s) {ticks : UInt32} {r : Int32}
    (h : sleepProcess H s ticks = some (s', r)) : Safe s s' := by
  obtain ⟨rfl, -⟩ | ⟨c, hc, -, ht⟩ := sleepProcess_cases h
  · exact .refl s'
  · have ha := hs.current hc
    have h1 : Safe s (s.setState H c .sleeping) := .setState hH ha (by simp)
    have h2 := h1.trans (.setFields _ c (f := fun q => { q with
      deadline := s.systemTicks + ticks }) fun _ => rfl)
    have h3 := h2.trans (.sleepQueue fun q hq => by
      rw [hH.waitQueueEnqueue_append, List.mem_append, List.mem_singleton] at hq
      exact hq.imp id fun (he : q = c) => (h2.alive q).mpr (he ▸ ha))
    exact h3.reschedule hH hs ht

theorem wakeupProcess_safe (hH : H.Documented) (hs : Sound s) (pid : UInt32) :
    Safe s (wakeupProcess H s pid).1 := by
  unfold wakeupProcess
  split
  · exact .refl s
  · rename_i p hp
    have ha : Alive s p := hs p (.inr (.inl (List.mem_of_find?_eq_some hp)))
    have h1 : Safe s { s with waitQueue := H.waitQueueRemove s.waitQueue p } :=
      .waitQueue fun q hq => .inl ((hH.waitQueueRemove_mem _ _ _).mp hq).1
    have h2 := h1.trans (.setState hH ((h1.alive p).mpr ha) ready_live)
    exact h2.trans (.add hH ((h2.alive p).mpr ha))

/-- A dead process may get another priority; it is queued only if it is ready. -/
theorem setPriority_safe (hH : H.Documented) (pid : UInt32) (priority : UInt8) :
    Safe s (setPriority H s pid priority).1 := by
  unfold setPriority
  split
  · exact .refl s
  · rename_i p hp
    dsimp only
    generalize (if 4 ≤ priority then 3 else priority) = level
    have hfound := hH.processTableFind_allocated _ _ _ hp
    have h1 := Safe.setFields s p fun q => hH.pcbSetPriority_state q level
    have h2 := h1.trans (.setFields _ p (f := fun q => { q with
      timeSlice := H.calculateTimeSlice level s.config.timeQuantum }) fun _ => rfl)
    split
    · rename_i hready
      have h3 := h2.trans (.remove hH _ p)
      have ha := (h2.alive p).mp (alive_of_ready hfound.1 hready)
      exact h3.trans (.add hH ((h3.alive p).mpr ha))
    · exact h2

/-! ## Creation, termination and release -/

/-- A new process in a slot that nothing refers to. -/
theorem createProcess_spec (hH : H.Documented) (hs : Sound s) {name : List UInt8}
    {type : ProcessType} {priority : UInt8} {flags : UInt32}
    {r : State × Option Slot} (h : createProcess H s name type priority flags = r) :
    Sound r.1 ∧ (∀ p, r.2 = some p → Alive r.1 p) ∧
      ∀ q, Gone s q → (H.pcbAlloc s.table).map (·.1) ≠ some q → Gone r.1 q := by
  subst h
  unfold createProcess
  cases halloc : H.pcbAlloc s.table with
  | none => exact ⟨hs, nofun, fun q hq _ => hq⟩
  | some a =>
    obtain ⟨p, table⟩ := a
    obtain ⟨hfree, hallocated, hother⟩ := hH.pcbAlloc_free _ _ _ halloc
    dsimp only
    -- everything written before the process is queued is in its own slot
    set t : State := State.setState H (State.setPcb (State.setPcb (State.setPcb _ p _) p _) p _)
      p .ready with ht
    have hpcb : ∀ q, q ≠ p → t.pcb q = s.pcb q := fun q hq => by
      rw [ht, State.setState, setPcb_of_ne _ _ hq, setPcb_of_ne _ _ hq, setPcb_of_ne _ _ hq,
        setPcb_of_ne _ _ hq]
      exact hother q hq
    have hbits : t.table.allocated = update s.table.allocated p true := hallocated
    have halive : ∀ q, q ≠ p → (Alive t q ↔ Alive s q) := fun q hq => by
      unfold Alive
      rw [hpcb q hq, hbits, update_of_ne hq]
    have hp : Alive t p := alive_of_ready (by rw [hbits, update_self])
      (by rw [ht, State.setState, setPcb_self, hH.pcbSetState_state])
    have hsound : Sound t := fun q hq => by
      have ha : Alive s q := hs q hq
      refine (halive q fun he => ?_).mpr ha
      rw [he] at ha
      exact absurd ha.1 (by simp [hfree])
    have hadd : Safe t { addToReadyQueueInternal H t p with
        stats := { (addToReadyQueueInternal H t p).stats with
          processesCreated := (addToReadyQueueInternal H t p).stats.processesCreated + 1 } } :=
      (Safe.add hH hp).trans (.of_table rfl fun _ => .inl)
    refine ⟨hadd.sound hsound, fun x hx => ?_, fun q hq hne => hadd.gone q ?_⟩
    · obtain rfl := Option.some.inj hx
      exact (hadd.alive p).mpr hp
    · have hqp : q ≠ p := fun he => hne (by rw [he]; rfl)
      unfold Gone
      rw [halive q hqp, hpcb q hqp]
      exact hq

/-- No place but the ready queue that `remove_from_ready_queue_internal` looks through leads to the
process. -/
def Unlinked (s : State) (p : Slot) : Prop :=
  s.idle ≠ some p ∧ p ∉ s.waitQueue.nodes ∧ p ∉ s.sleepQueue.nodes ∧
    (s.config.schedulerType ≠ .rr → s.config.schedulerType ≠ .fifo → ¬ s.Waits p)

instance (s : State) (p : Slot) : Decidable (Unlinked s p) := by
  delta Unlinked
  infer_instance

/-- Removal forgets a process that waits nowhere else. -/
theorem remove_waits (hH : H.Documented) (hu : Unlinked s p)
    (hq : (removeFromReadyQueueInternal H s p).Waits q) : s.Waits q ∧ q ≠ p := by
  have hkeep : s.config.schedulerType ≠ .rr → s.config.schedulerType ≠ .fifo → s.Waits q →
      s.Waits q ∧ q ≠ p := fun hrr hfifo hw => ⟨hw, fun he => hu.2.2.2 hrr hfifo (he ▸ hw)⟩
  unfold removeFromReadyQueueInternal at hq
  cases ht : s.config.schedulerType with
  | mlfq =>
    rw [ht] at hq
    exact hkeep (by simp [ht]) (by simp [ht]) hq
  | other =>
    rw [ht] at hq
    exact hkeep (by simp [ht]) (by simp [ht]) hq
  | rr =>
    unfold State.Waits at hq ⊢
    simp only [ht] at hq ⊢
    exact (hH.readyQueueRemove_mem _ _ _).mp hq
  | fifo =>
    unfold State.Waits at hq ⊢
    simp only [ht] at hq ⊢
    exact (hH.readyQueueRemove_mem _ _ _).mp hq

/-- The process that `scheduler_terminate_process` ends is referred to no more. -/
theorem terminateProcess_spec (hH : H.Documented) (hs : Sound s) {pid : UInt32}
    (exitCode : Int32)
    (hg : ∀ p, H.processTableFind s.table pid = some p → ¬ Dead s p → Unlinked s p) :
    Sound (terminateProcess H s pid exitCode).1 ∧
      ∀ q, Gone s q → Gone (terminateProcess H s pid exitCode).1 q := by
  unfold terminateProcess
  split
  · exact ⟨hs, fun _ => id⟩
  · rename_i p hp
    split
    · exact ⟨hs, fun _ => id⟩
    · rename_i hlive
      have hdead : ¬ Dead s p := fun h => hlive h.symm
      have hu : Unlinked s p := hg p hp hdead
      dsimp only
      set a : State := s.setPcb p fun q => { q with exitCode := exitCode } with ha
      have hwaits : ∀ q, (removeFromReadyQueueInternal H a p).Waits q → s.Waits q ∧ q ≠ p :=
        fun q => remove_waits (s := a) hH hu
      obtain ⟨l, hl⟩ := remove_eq (H := H) a p
      rw [hl] at hwaits ⊢
      set t : State := State.setState H (State.setPcb { a with readyQueue := l } p _) p .zombie
        with ht
      have hpcb : ∀ q, q ≠ p → t.pcb q = s.pcb q := fun q hq => by
        rw [ht, State.setState, setPcb_of_ne _ _ hq, setPcb_of_ne _ _ hq]
        exact setPcb_of_ne s (fun q => { q with exitCode := exitCode }) hq
      have hzombie : (t.pcb p).state = .zombie := by
        rw [ht, State.setState, setPcb_self, hH.pcbSetState_state]
      have hsound : ∀ c : Option Slot, ∀ b : Bool, c ≠ some p →
          (∀ q, c = some q → s.current = some q) → ∀ st : Stats,
          Sound { t with current := c, needReschedule := b, stats := st } := by
        intro c b hc hcur st q hq
        have hrefers : Refers s q ∧ q ≠ p := by
          rcases hq with hq | hq | hq | hq | hq
          · exact ⟨.inl (hwaits q hq).1, (hwaits q hq).2⟩
          · exact ⟨.inr (.inl hq), fun he => hu.2.1 (he ▸ hq)⟩
          · exact ⟨.inr (.inr (.inl hq)), fun he => hu.2.2.1 (he ▸ hq)⟩
          · exact ⟨.inr (.inr (.inr (.inl (hcur q hq)))), fun he => hc (he ▸ hq)⟩
          · exact ⟨.inr (.inr (.inr (.inr hq))), fun he => hu.1 (he ▸ hq)⟩
        have hold : Alive s q := hs q hrefers.1
        unfold Alive
        rw [show State.pcb { t with current := c, needReschedule := b, stats := st } q = s.pcb q
          from hpcb q hrefers.2]
        exact hold
      have hgone : ∀ q, Gone s q → Gone t q := fun q hq => by
        by_cases hqp : q = p
        · exact Dead.gone (.inl (hqp ▸ hzombie))
        · unfold Gone Alive
          rw [hpcb q hqp]
          exact hq
      split
      · exact ⟨hsound none true nofun nofun _, hgone⟩
      · rename_i hc
        exact ⟨hsound s.current t.needReschedule hc (fun _ => id) _, hgone⟩

/-- A zombie is referred to by nothing when its slot is released. -/
theorem reapProcess_spec (hH : H.Documented) (hs : Sound s) (pid : UInt32) :
    Sound (reapProcess H s pid).1 ∧ ∀ q, Gone s q → Gone (reapProcess H s pid).1 q := by
  unfold reapProcess
  split
  · exact ⟨hs, fun _ => id⟩
  · rename_i p hp
    split
    · exact ⟨hs, fun _ => id⟩
    · rename_i hzombie
      dsimp only
      set t : State := State.setState H { s with stats := _ } p .terminated with ht
      obtain ⟨hbits, hready, hrunning, hother⟩ := hH.pcbFree_release t.table p
      have hpcb : ∀ q, q ≠ p →
          State.pcb { t with table := H.pcbFree t.table p } q = s.pcb q := fun q hq => by
        refine (hother q hq).trans ?_
        exact setPcb_of_ne { s with stats := t.stats } _ hq
      have halive : ∀ q, q ≠ p →
          (Alive { t with table := H.pcbFree t.table p } q ↔ Alive s q) := fun q hq => by
        unfold Alive
        rw [hpcb q hq, hbits, update_of_ne hq]
        rfl
      refine ⟨fun q hq => ?_, fun q hq => ?_⟩
      · have hold : Alive s q := hs q hq
        refine (halive q fun he => ?_).mpr hold
        exact hold.2.1 (he ▸ not_not.mp hzombie)
      · by_cases hqp : q = p
        · subst hqp
          refine ⟨fun ha => ?_, hready, hrunning⟩
          have hbit := ha.1
          rw [hbits, update_self] at hbit
          exact absurd hbit (by decide)
        · unfold Gone
          rw [halive q hqp, hpcb q hqp]
          exact hq

/-! ## Runs -/

/-- A process that is terminated has no place left that leads to it. -/
def KillGuard (H : Helpers) (s : State) : Op → Prop
  | .terminate pid _ => ∀ p, H.processTableFind s.table pid = some p → ¬ Dead s p → Unlinked s p
  | _ => True

instance (s : State) (p : Slot) : Decidable (Dead s p) := by
  delta Dead
  infer_instance

instance (H : Helpers) (s : State) (op : Op) : Decidable (KillGuard H s op) :=
  match op with
  | .terminate pid _ => decidable_of_iff
      (∀ p ∈ H.processTableFind s.table pid, ¬ Dead s p → Unlinked s p) Iff.rfl
  | .create .. | .reap _ | .schedule | .tick | .yield | .block | .wakeup _ | .sleep _
  | .setPriority .. => isTrue trivial

/-- The call puts a new process in the slot. -/
def Reallocates (H : Helpers) (s : State) (p : Slot) : Op → Prop
  | .create .. => (H.pcbAlloc s.table).map (·.1) = some p
  | _ => False

instance (H : Helpers) (s : State) (p : Slot) (op : Op) : Decidable (Reallocates H s p op) := by
  delta Reallocates
  exact match op with
  | .create _ _ _ _ | .terminate _ _ | .reap _ | .schedule | .tick | .yield | .block | .wakeup _
  | .sleep _ | .setPriority _ _ => inferInstance

/-- **A step keeps the places sound, and the dead dead.** -/
theorem step_sound (hH : H.Documented) (hs : Sound s) (hg : KillGuard H s op)
    (h : Step H s op s') : Sound s' ∧ ∀ q, Gone s q → ¬ Reallocates H s q op → Gone s' q := by
  have hsafe : Safe s s' → Sound s' ∧ ∀ q, Gone s q → ¬ Reallocates H s q op → Gone s' q :=
    fun h1 => ⟨h1.sound hs, fun q hq _ => h1.gone q hq⟩
  cases op with
  | create name type priority flags =>
    obtain rfl := Option.some.inj h
    obtain ⟨h1, -, h2⟩ := createProcess_spec (r := createProcess H s name type priority flags)
      hH hs rfl
    exact ⟨h1, h2⟩
  | terminate pid exitCode =>
    obtain rfl := Option.some.inj h
    obtain ⟨h1, h2⟩ := terminateProcess_spec hH hs exitCode hg
    exact ⟨h1, fun q hq _ => h2 q hq⟩
  | reap pid =>
    obtain rfl := Option.some.inj h
    obtain ⟨h1, h2⟩ := reapProcess_spec hH hs pid
    exact ⟨h1, fun q hq _ => h2 q hq⟩
  | schedule => exact hsafe (schedule_safe hH hs h)
  | tick => exact hsafe (tickHandler_safe hH hs h)
  | yield => exact hsafe (yield_safe hH hs h)
  | block =>
    obtain ⟨⟨t, r⟩, ht, rfl⟩ := Option.map_eq_some_iff.mp h
    exact hsafe (blockProcess_safe hH hs ht)
  | wakeup pid =>
    obtain rfl := Option.some.inj h
    exact hsafe (wakeupProcess_safe hH hs pid)
  | sleep ticks =>
    obtain ⟨⟨t, r⟩, ht, rfl⟩ := Option.map_eq_some_iff.mp h
    exact hsafe (sleepProcess_safe hH hs ht)
  | setPriority pid priority =>
    obtain rfl := Option.some.inj h
    exact hsafe (setPriority_safe hH pid priority)

theorem initialState_sound (hH : H.Documented) (statics : Statics) (config : Config) :
    Sound (initialState H statics config) := by
  rintro p (h | h | h | h | h)
  · unfold State.Waits at h
    split at h
    · rename_i ht
      obtain ⟨i, hi⟩ := h
      have hmlfq : (initialState H statics config).mlfq =
          H.mlfqInit config.numPriorityLevels config.boostInterval := if_pos ht
      rw [hmlfq, hH.mlfqInit_empty] at hi
      exact absurd hi List.not_mem_nil
    · have hready : (initialState H statics config).readyQueue = [] := hH.readyQueueInit_empty _
      rw [hready] at h
      exact absurd h List.not_mem_nil
  · have hwait : (initialState H statics config).waitQueue.nodes = [] := hH.waitQueueInit_empty
    rw [hwait] at h
    exact absurd h List.not_mem_nil
  · have hsleep : (initialState H statics config).sleepQueue.nodes = [] := hH.waitQueueInit_empty
    rw [hsleep] at h
    exact absurd h List.not_mem_nil
  · cases h
  · cases h

theorem schedulerInit_sound (hH : H.Documented) (statics : Statics) (config : Option Config) :
    Sound (schedulerInit H statics config) := by
  unfold schedulerInit
  generalize hr : createProcess H (initialState H statics (config.getD defaultConfig))
    [105, 100, 108, 101] .system 3 PROCESS_FLAG_CPU_BOUND = r
  obtain ⟨hsound, halive, -⟩ := createProcess_spec hH (initialState_sound hH statics _) hr
  dsimp only
  split
  · exact hsound
  · rename_i p hp
    have ha := halive p hp
    have h1 := Safe.setCurrent ha
    have h2 : Safe r.1 { r.1 with idle := some p, current := some p } := h1.trans (by
      refine .of_table rfl ?_
      rintro q (h | h | h | h | h)
      · exact .inl (.inl h)
      · exact .inl (.inr (.inl h))
      · exact .inl (.inr (.inr (.inl h)))
      · exact .inl (.inr (.inr (.inr (.inl h))))
      · exact .inl (.inr (.inr (.inr (.inl h)))))
    have h3 := h2.trans (.setPcb (f := fun q => { q with state := .running })
      ((h2.alive p).mpr ha) ⟨nofun, nofun⟩)
    exact (h3.trans (.of_table rfl fun _ => .inl)).sound hsound

/-- **Once dead, always dead**, as long as nothing is terminated that a queue, or the idle pointer,
still leads to. -/
theorem dead_stays_dead (hH : H.Documented) {statics : Statics} {config : Option Config}
    (hrun : Reaches (Step H) (KillGuard H) (schedulerInit H statics config) s₁) (hdead : Dead s₁ p)
    (hlater : Reaches (Step H) (fun s op => KillGuard H s op ∧ ¬ Reallocates H s p op) s₁ s₂) :
    (s₂.pcb p).state ≠ .ready ∧ (s₂.pcb p).state ≠ .running ∧ s₂.current ≠ some p := by
  have hs₁ : Sound s₁ := hrun.invariant (schedulerInit_sound hH statics config)
    fun s op s' hs hg h => (step_sound hH hs hg h).1
  have hend : Sound s₂ ∧ Gone s₂ p := hlater.invariant (I := fun s => Sound s ∧ Gone s p)
    ⟨hs₁, hdead.gone⟩ fun s op s' hi hg h => by
      obtain ⟨h1, h2⟩ := step_sound hH hi.1 hg.1 h
      exact ⟨h1, h2 p hi.2 hg.2⟩
  obtain ⟨hs₂, hgone⟩ := hend
  exact ⟨hgone.2.1, hgone.2.2, fun hc => hgone.1 (hs₂.current hc)⟩

theorem dead_stays_dead_run : ∃ s₁ s₂, Dead s₁ 1 ∧ s₂.current = some 2 ∧
    Reaches (Step listHelpers) (fun s op => KillGuard listHelpers s op ∧
      ¬ Reallocates listHelpers s 1 op) s₁ s₂ ∧
    (s₂.pcb 1).state ≠ .ready ∧ (s₂.pcb 1).state ≠ .running ∧ s₂.current ≠ some 1 := by
  have hx : ((exec (step listHelpers) (fun s op => decide (KillGuard listHelpers s op))
      (schedulerInit listHelpers ⟨0, 0, 0, 0⟩ (some ⟨.fifo, 10, true, false, 4, 1000, 500⟩))
      [.create [] .user 0 0, .create [] .user 0 0, .schedule, .schedule, .terminate 2 0]).bind
        fun s₁ => (exec (step listHelpers) (fun s op => decide (KillGuard listHelpers s op ∧
          ¬ Reallocates listHelpers s 1 op)) s₁ [.tick, .reap 2]).map
            fun s₂ => (decide (Dead s₁ 1), s₂.current)) = some (true, some 2) := by
    decide +kernel
  obtain ⟨s₁, h₁, hx⟩ := Option.bind_eq_some_iff.mp hx
  obtain ⟨s₂, h₂, hobs⟩ := Option.map_eq_some_iff.mp hx
  simp only [Prod.mk.injEq, decide_eq_true_eq] at hobs
  obtain ⟨hd, hc⟩ := hobs
  have hlater := run_of_exec h₂
  exact ⟨s₁, s₂, hd, hc, hlater,
    dead_stays_dead listHelpers_documented (run_of_exec h₁) hd hlater⟩

/-- Under MLFQ a process that waits is terminated, and then dispatched. -/
theorem dead_runs : ¬ ∀ (H : Helpers) (statics : Statics) (config : Option Config) (p : Slot)
    (s₁ s₂ : State), H.Documented →
    Reaches (Step H) anyAction (schedulerInit H statics config) s₁ → Dead s₁ p →
    Reaches (Step H) (fun s op => ¬ Reallocates H s p op) s₁ s₂ →
    (s₂.pcb p).state ≠ .ready ∧ (s₂.pcb p).state ≠ .running ∧ s₂.current ≠ some p := by
  intro hall
  have hx : ((exec (step listHelpers) (fun _ _ => true)
      (schedulerInit listHelpers ⟨0, 0, 0, 0⟩ none)
      [.create [] .user 0 0, .terminate 2 0]).bind fun s₁ =>
        (exec (step listHelpers) (fun s op => decide (¬ Reallocates listHelpers s 1 op)) s₁
          [.schedule]).map fun s₂ => (decide (Dead s₁ 1), s₂.current)) = some (true, some 1) := by
    decide +kernel
  obtain ⟨s₁, h₁, hx⟩ := Option.bind_eq_some_iff.mp hx
  obtain ⟨s₂, h₂, hobs⟩ := Option.map_eq_some_iff.mp hx
  simp only [Prod.mk.injEq, decide_eq_true_eq] at hobs
  obtain ⟨hd, hc⟩ := hobs
  exact (hall listHelpers _ _ 1 s₁ s₂ listHelpers_documented (anyRun_of_exec h₁) hd
    (run_of_exec h₂)).2.2 hc

end OSCompas.Kernel
