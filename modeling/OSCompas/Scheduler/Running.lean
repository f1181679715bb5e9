import OSCompas.Scheduler.Effects

/-!
# The current process

What the calls keep between `current_process` and the states of the processes, whatever the queues
look like.

* `Agrees` — the current process is the only one that is running;
* `RunGuard` — a process only yields to another one;
* `WorkConserving` — no process is ready while none is current;
* `InLine` — what the heads and counts of the queues show the policy;
* `WorkOk` — when work is conserved by a call, by the state before it.

Principal results: `step_agrees`, `current_is_running`, `step_workConserving` and
`work_conserving_iff`.
-/

set_option autoImplicit false

namespace OSCompas.Scheduler

open Function Runs

variable {s s' s₁ : State} {op : Op} {config : Config} {c i p x : Slot}

/-- There is no current process and none is running, or the current process is the one that is
running. -/
def Agrees (s : State) : Prop :=
  (s.current = none ∧ ∀ p, (s.pcb p).state ≠ .running) ∨
    ∃ c, s.current = some c ∧ (s.pcb c).state = .running ∧
      ∀ p, (s.pcb p).state = .running → p = c

theorem agrees_iff : Agrees s ↔ ∀ p, (s.pcb p).state = .running ↔ s.current = some p := by
  constructor
  · rintro (⟨hc, hno⟩ | ⟨c, hc, hr, huniq⟩) p
    · rw [hc]
      exact ⟨fun h => absurd h (hno p), nofun⟩
    · rw [hc]
      constructor
      · intro h
        rw [huniq p h]
      · intro h
        obtain rfl := Option.some.inj h
        exact hr
  · intro h
    cases hc : s.current with
    | none => exact .inl ⟨hc, fun p hp => nomatch hc.symm.trans ((h p).mp hp)⟩
    | some c =>
      refine .inr ⟨c, hc, (h c).mpr hc, fun p hp => ?_⟩
      exact Option.some.inj (((h p).mp hp).symm.trans hc)

/-! ## The condition -/

/-- Once `c` is back in its queue the policy picks another process. -/
def State.Relieved (s : State) (c : Slot) : Prop := s.pickWith c ≠ none ∧ s.pickWith c ≠ some c

instance (s : State) (c : Slot) : Decidable (s.Relieved c) := inferInstanceAs (Decidable (_ ∧ _))

/-- The condition on a call and the state before it. -/
def RunGuard (s : State) : Op → Prop
  | .create _ _ => ∀ p ∈ findFreePcb s, s.current ≠ some p
  | .terminate pid => ∀ i ∈ findProcess s pid, ∀ c ∈ s.current, (s.pcb c).pid = pid → c = i
  | .yield => ∀ c ∈ s.current, s.Relieved c
  | .tick => ∀ c ∈ s.current, s.expires c → s.Relieved c
  | .schedule => True

instance (s : State) (op : Op) : Decidable (RunGuard s op) := by
  delta RunGuard
  exact match op with
  | .create _ _ | .terminate _ | .yield | .tick | .schedule => inferInstance

/-! ## Runs -/

/-- The table of a state with the same states. -/
theorem SameStates.agrees (h : SameStates s s') (ha : Agrees s) : Agrees s' := by
  rw [agrees_iff] at ha ⊢
  intro p
  rw [h.state, h.current]
  exact ha p

theorem Switched.agrees (h : Switched s s' x) (ha : Agrees s) : Agrees s' := by
  rw [agrees_iff] at ha ⊢
  intro p
  rw [h.state, h.current]
  by_cases hpx : p = x
  · simp [hpx]
  · rw [if_neg hpx]
    by_cases hc : s.current = some p
    · simp [hc, Ne.symm hpx]
    · rw [if_neg hc, ha p]
      simp [hc, Ne.symm hpx]

/-- The dispatch of a state that agrees. -/
theorem schedule_agrees (ha : Agrees s) (hs : schedule s = some s') : Agrees s' := by
  obtain ⟨-, ⟨-, hst⟩ | ⟨x, -, -, hsw⟩⟩ := schedule_effect hs
  · exact hst.agrees ha
  · exact hsw.agrees ha

/-- **A guarded call keeps the current process and the running one in step.** -/
theorem step_agrees (ha : Agrees s) (hg : RunGuard s op) (hs : Step s op s') : Agrees s' := by
  cases op with
  | create name priority =>
    obtain ⟨⟨s₁, o⟩, hcr, rfl⟩ := Option.map_eq_some_iff.mp hs
    rcases create_cases hcr with ⟨-, rfl⟩ | ⟨p, s₀, hf, hcreated, hadd⟩
    · exact ha
    · obtain ⟨l, -, rfl⟩ := addToReadyQueue_effect hadd
      rw [agrees_iff] at ha ⊢
      intro y
      show (s₀.pcb y).state = .running ↔ s₀.current = some y
      rw [hcreated.current]
      by_cases hy : y = p
      · subst hy
        rw [hcreated.state]
        exact ⟨nofun, fun hc => absurd hc (hg y hf)⟩
      · rw [hcreated.other y hy]
        exact ha y
  | terminate pid =>
    rcases terminate_cases hs with ⟨-, rfl⟩ | ⟨i, hf, hcase⟩
    · exact ha
    · obtain ⟨-, -, hstate⟩ := vacated_effect s i
      have hpid : (s.pcb i).pid = pid ∧ (s.pcb i).state ≠ .terminated := by
        simpa using List.find?_some hf
      rcases hcase with ⟨c, hc, hcp, hsch⟩ | ⟨hno, rfl⟩
      · obtain rfl := hg i hf c hc hcp
        refine schedule_agrees ?_ hsch
        rw [agrees_iff] at ha ⊢
        intro p
        show ((retire s c).pcb p).state = .running ↔ none = some p
        rw [hstate]
        by_cases hpc : p = c
        · simp [hpc]
        · rw [if_neg hpc, ha p, hc]
          simp [Ne.symm hpc]
      · obtain ⟨hst, -⟩ := retire_effect s i
        rw [agrees_iff] at ha ⊢
        intro p
        rw [hstate, hst.current]
        by_cases hpi : p = i
        · rw [if_pos hpi]
          refine ⟨nofun, fun hc => absurd ?_ (hno p hc)⟩
          rw [hpi]
          exact hpid.1
        · rw [if_neg hpi]
          exact ha p
  | yield =>
    cases hcur : s.current with
    | none =>
      have hsch : schedule s = some s' := (yield_none hcur).symm.trans hs
      exact schedule_agrees ha hsch
    | some c =>
      obtain ⟨hnone, hself⟩ := hg c hcur
      obtain ⟨-, ⟨hp, -⟩ | ⟨x, -, -, hsw⟩⟩ := yield_effect hcur hs
      · exact absurd hp (not_or.mpr ⟨hnone, hself⟩)
      · exact hsw.agrees ha
  | tick =>
    rcases tick_effect hs with ⟨-, hst⟩ | ⟨c, hcur, he, hcase⟩
    · exact hst.agrees ha
    · obtain ⟨hnone, hself⟩ := hg c hcur he
      rcases hcase with ⟨hp, -⟩ | ⟨x, -, -, hsw⟩
      · exact absurd hp (not_or.mpr ⟨hnone, hself⟩)
      · exact hsw.agrees ha
  | schedule => exact schedule_agrees ha hs

/-- **In a guarded run the current process is the one that is running, in every state.** -/
theorem current_is_running (hrun : Reaches Step RunGuard (schedulerInit config) s) :
    Agrees s :=
  hrun.invariant (.inl ⟨rfl, fun _ => nofun⟩) fun _ _ _ => step_agrees

theorem current_is_running_run : ∃ s, s.current = some 1 ∧
    Reaches Step RunGuard (schedulerInit ⟨.fifo, 10, 1, 4, 100⟩) s ∧ Agrees s := by
  have hx : (exec step (fun s op => decide (RunGuard s op))
      (schedulerInit ⟨.fifo, 10, 1, 4, 100⟩)
      [.create [] 0, .create [] 0, .create [] 0, .schedule, .tick, .yield]).map (·.current) =
      some (some 1) := by decide +kernel
  obtain ⟨s, hs, hc⟩ := Option.map_eq_some_iff.mp hx
  have hrun := run_of_exec hs
  exact ⟨s, hc, hrun, current_is_running hrun⟩

/-- A process that is alone yields: it is the current process, and ready. -/
theorem current_is_not_running : ¬ ∀ config s,
    Reaches Step anyAction (schedulerInit config) s → Agrees s := by
  intro hall
  have hx : (exec step (fun _ _ => true) (schedulerInit ⟨.fifo, 10, 1, 4, 100⟩)
      [.create [] 0, .schedule, .yield]).map (fun s => (s.current, (s.pcb 0).state)) =
      some (some 0, .ready) := by decide +kernel
  obtain ⟨s, hs, hobs⟩ := Option.map_eq_some_iff.mp hx
  simp only [Prod.mk.injEq] at hobs
  obtain ⟨hc, hr⟩ := hobs
  have hrunning := (agrees_iff.mp (hall _ s (anyRun_of_exec hs)) 0).mpr hc
  cases hr.symm.trans hrunning

/-! ## Work conservation -/

/-- If some process is ready, there is a current one. -/
def WorkConserving (s : State) : Prop := (∃ p, (s.pcb p).state = .ready) → s.current ≠ none

/-- The calls that work conservation is about. -/
def Checked : Op → Prop
  | .tick => True
  | .yield => True
  | .terminate _ => True
  | _ => False

/-- There is somebody in line, by heads and counts: under MLFQ a level with a positive count, under
the other policies a positive count and a head in `ready_queue`. -/
def InLine (type : SchedulerType) (queue : QueueId → ReadyQueue) : Prop :=
  if type = .mlfq then ∃ i, 0 < (queue (.level i)).count
  else 0 < (queue .ready).count ∧ (queue .ready).head ≠ none

/-- The queues once `i` is taken out of its own: one off the count if there is one, and what is on
its other side for the head or the tail where it has no neighbour. -/
def State.queuesWithout (s : State) (i : Slot) : QueueId → ReadyQueue :=
  let q := s.links.queue (s.homeQueue i)
  if s.unmanaged i then s.links.queue
  else update s.links.queue (s.homeQueue i)
    ⟨if s.links.prev i = none then s.links.next i else q.head,
      if s.links.next i = none then s.links.prev i else q.tail,
      if q.count > 0 then q.count - 1 else q.count⟩

/-- When a call ends in a state that conserves work: `scheduler_tick` never dispatches without a
current process, and the other two go by the heads and counts of the queues. -/
def WorkOk (s : State) : Op → Prop
  | .tick => s.current ≠ none ∨ ∀ p, (s.pcb p).state ≠ .ready
  | .yield => s.current ≠ none ∨ InLine s.config.type s.links.queue ∨
      ∀ p, (s.pcb p).state ≠ .ready
  | .terminate pid => match findProcess s pid with
    | none => s.current ≠ none ∨ ∀ p, (s.pcb p).state ≠ .ready
    | some i => (if s.current.map (fun c => (s.pcb c).pid) = some pid then
          InLine s.config.type (s.queuesWithout i)
        else s.current ≠ none) ∨ ∀ p, p ≠ i → (s.pcb p).state ≠ .ready
  | _ => True

/-- **The policy picks somebody exactly if somebody is in line**, if `scheduler_schedule` returns:
under MLFQ it does not with a count but no head. -/
theorem pick_iff_inLine (hs : schedule s = some s') :
    s.pick ≠ none ↔ InLine s.config.type s.links.queue := by
  obtain ⟨s₁, hsel, -⟩ := schedule_parts hs
  by_cases ht : s.config.type = .mlfq
  · have hmlfq : mlfqSchedule s = some (s₁, s.pick) := by
      unfold selectNext at hsel
      rwa [ht] at hsel
    rw [InLine, if_pos ht]
    rcases mlfqSchedule_parts hmlfq with ⟨hnone, hp, -⟩ | ⟨i, -, p, hi, -, hp, -⟩
    · refine iff_of_false (not_not.mpr hp) ?_
      rintro ⟨i, hi⟩
      have hno := List.find?_eq_none.mp hnone i (List.mem_finRange i)
      exact hno (decide_eq_true hi)
    · have hcount := List.find?_some hi
      exact iff_of_true (by simp [hp]) ⟨i, of_decide_eq_true hcount⟩
  · rw [InLine, if_neg ht, State.pick, pickQueue_single ht, UInt32.pos_iff_ne_zero]
    by_cases h0 : (s.links.queue .ready).count = 0
    · simp [h0]
    · simp [h0]

theorem vacated_queues (s : State) (i : Slot) :
    (retire s i).links.queue = s.queuesWithout i := by
  rw [retire_links]
  unfold State.queuesWithout
  dsimp only
  split
  · rfl
  · exact unlink_queue _ _ _

theorem workConserving_iff :
    WorkConserving s ↔ s.current ≠ none ∨ ∀ p, (s.pcb p).state ≠ .ready := by
  unfold WorkConserving
  constructor
  · intro h
    by_cases hr : ∃ p, (s.pcb p).state = .ready
    · exact .inl (h hr)
    · exact .inr fun p hp => hr ⟨p, hp⟩
  · rintro (hc | hno) ⟨p, hp⟩
    · exact hc
    · exact absurd hp (hno p)

theorem SameStates.workConserving_iff (h : SameStates s s') :
    WorkConserving s' ↔ s.current ≠ none ∨ ∀ p, (s.pcb p).state ≠ .ready := by
  rw [Scheduler.workConserving_iff, h.current]
  simp only [h.state]

theorem workConserving_of_some (hc : s.current = some c) : WorkConserving s :=
  fun _ hn => nomatch hc.symm.trans hn

/-- A dispatch from a state without a current process. -/
theorem schedule_workConserving (hc : s.current = none) (hs : schedule s = some s') :
    WorkConserving s' ↔
      InLine s.config.type s.links.queue ∨ ∀ p, (s.pcb p).state ≠ .ready := by
  rw [← pick_iff_inLine hs]
  obtain ⟨-, ⟨hp, hst⟩ | ⟨x, hx, -, hsw⟩⟩ := schedule_effect hs
  · have hpick : s.pick = none := hp.elim id fun he => he.trans hc
    rw [hst.workConserving_iff, hc, hpick]
  · simp [workConserving_of_some hsw.current, hx]

/-- **Work is conserved by a call exactly if its condition holds.** -/
theorem step_workConserving (hop : Checked op) (hs : Step s op s') :
    WorkConserving s' ↔ WorkOk s op := by
  cases op with
  | create => exact hop.elim
  | schedule => exact hop.elim
  | tick =>
    rcases tick_effect hs with ⟨-, hst⟩ | ⟨c, hc, -, hcase⟩
    · exact hst.workConserving_iff
    · have hok : WorkOk s .tick := .inl (by simp [hc])
      refine iff_of_true ?_ hok
      rcases hcase with ⟨-, hst⟩ | ⟨x, -, -, hsw⟩
      · exact workConserving_of_some (hst.current.trans hc)
      · exact workConserving_of_some hsw.current
  | yield =>
    cases hc : s.current with
    | none =>
      have hsch : schedule s = some s' := (yield_none hc).symm.trans hs
      rw [schedule_workConserving hc hsch]
      show _ ↔ s.current ≠ none ∨ _
      simp [hc]
    | some c =>
      have hok : WorkOk s .yield := .inl (by simp [hc])
      refine iff_of_true ?_ hok
      obtain ⟨-, ⟨-, hst⟩ | ⟨x, -, -, hsw⟩⟩ := yield_effect hc hs
      · exact workConserving_of_some (hst.current.trans hc)
      · exact workConserving_of_some hsw.current
  | terminate pid =>
    unfold WorkOk
    rcases terminate_cases hs with ⟨hf, rfl⟩ | ⟨i, hf, hcase⟩
    · simp only [hf]
      exact workConserving_iff
    · obtain ⟨hprocs, -, hstate⟩ := vacated_effect s i
      have hready : (∀ p, ((retire s i).pcb p).state ≠ .ready) ↔
          ∀ p, p ≠ i → (s.pcb p).state ≠ .ready := by
        refine forall_congr' fun p => ?_
        rw [hstate]
        by_cases hpi : p = i <;> simp [hpi]
      simp only [hf]
      rcases hcase with ⟨c, hc, hcp, hsch⟩ | ⟨hno, rfl⟩
      · have hinLine : InLine (retire s i).config.type (retire s i).links.queue ↔
            InLine s.config.type (s.queuesWithout i) := by
          rw [show (retire s i).config = s.config from hprocs.config, vacated_queues]
        rw [if_pos (by simp [hc, hcp]), schedule_workConserving rfl hsch]
        exact or_congr hinLine hready
      · rw [if_neg (by
          cases hc : s.current with
          | none => simp
          | some c => simpa using hno c hc), workConserving_iff]
        obtain ⟨hst, -⟩ := retire_effect s i
        rw [hst.current]
        exact or_congr Iff.rfl hready

/-- A state, with the last call and the state before it. -/
structure Logged where
  state : State
  last : Option (State × Op)

def stepLogged (w : Logged) (op : Op) : Option Logged :=
  (step w.state op).map fun s' => ⟨s', some (w.state, op)⟩

def LoggedStep (w : Logged) (op : Op) (w' : Logged) : Prop := stepLogged w op = some w'

/-- **In every run work is conserved after a call exactly if its condition held before.** -/
theorem work_conserving_iff {w : Logged}
    (hrun : Reaches LoggedStep anyAction ⟨schedulerInit config, none⟩ w)
    (hlast : w.last = some (s, op)) (hop : Checked op) : WorkConserving w.state ↔ WorkOk s op := by
  have hstep : ∀ s op, w.last = some (s, op) → Step s op w.state := by
    refine hrun.invariant (I := fun w => ∀ s op, w.last = some (s, op) → Step s op w.state)
      (fun _ _ h => nomatch h) ?_
    rintro w op w' - - hw s op' he
    obtain ⟨s', hs', rfl⟩ := Option.map_eq_some_iff.mp hw
    cases he
    exact hs'
  exact step_workConserving hop (hstep s op hlast)

theorem work_conserving_iff_run : ∃ (w : Logged) (s : State), w.state.current = some 1 ∧
    w.last = some (s, .terminate 1) ∧ (WorkConserving w.state ↔ WorkOk s (.terminate 1)) := by
  have hx : (exec stepLogged (fun _ _ => true) ⟨schedulerInit ⟨.mlfq, 10, 1, 4, 100⟩, none⟩
      [.create [] 0, .schedule, .create [] 1, .tick, .terminate 1]).map
      (fun w => (w.state.current, w.last.map (·.2))) = some (some 1, some (.terminate 1)) := by
    decide +kernel
  obtain ⟨w, hw, hobs⟩ := Option.map_eq_some_iff.mp hx
  simp only [Prod.mk.injEq] at hobs
  obtain ⟨hc, hl⟩ := hobs
  obtain ⟨⟨s, op⟩, hl, rfl⟩ := Option.map_eq_some_iff.mp hl
  have hrun : Reaches LoggedStep anyAction _ w :=
    reaches_of_exec (fun _ _ _ => trivial) (fun _ _ _ h => h) hw
  exact ⟨w, s, hc, hl, work_conserving_iff hrun hl trivial⟩

/-- A process is created, and the timer ticks. -/
theorem work_not_conserved : ¬ ∀ config (w : Logged) s op,
    Reaches LoggedStep anyAction ⟨schedulerInit config, none⟩ w → w.last = some (s, op) →
    Checked op → WorkConserving w.state := by
  intro hall
  have hx : (exec stepLogged (fun _ _ => true) ⟨schedulerInit ⟨.rr, 10, 1, 4, 100⟩, none⟩
      [.create [] 0, .tick]).map
      (fun w => ((w.state.pcb 0).state, w.state.current, w.last.map (·.2))) =
      some (.ready, none, some .tick) := by decide +kernel
  obtain ⟨w, hw, hobs⟩ := Option.map_eq_some_iff.mp hx
  simp only [Prod.mk.injEq] at hobs
  obtain ⟨hr, hc, hl⟩ := hobs
  obtain ⟨⟨s, op⟩, hl, rfl⟩ := Option.map_eq_some_iff.mp hl
  have hrun : Reaches LoggedStep anyAction _ w :=
    reaches_of_exec (fun _ _ _ => trivial) (fun _ _ _ h => h) hw
  exact hall _ w s .tick hrun hl trivial ⟨0, hr⟩ hc

end OSCompas.Scheduler
