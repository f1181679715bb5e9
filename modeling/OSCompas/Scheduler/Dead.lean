import OSCompas.Scheduler.Calls

/-!
# A terminated process never runs again

`remove_from_ready_queue` returns early on a priority of 4 or more, for which
`add_to_ready_queue` uses the lowest level: a process that is terminated while it waits there
stays in the queue.

* `Off` — a terminated process is on no list, and not the current one;
* `Reuses` — `scheduler_create_process` takes the slot;
* `DeadGuard` — the condition.

Principal results: `Off.schedule`, `step_off`, `terminated_stays` and `terminated_runs`.
-/

set_option autoImplicit false

namespace OSCompas.Scheduler

open Function Intrusive Runs

/-- Terminated processes are on no list, and the current process is not terminated. -/
def Off (s : State) (qs : Queues) : Prop :=
  ∀ p, (s.pcb p).state = .terminated → ¬ OnList qs p ∧ s.current ≠ some p

/-- The call takes the slot `p` for a new process. -/
def Reuses (s : State) (p : Slot) : Op → Prop
  | .create _ _ => findFreePcb s = some p
  | _ => False

/-- The process to terminate is taken out of the queue it is in. -/
def UnlinkOk (s : State) : Op → Prop
  | .terminate pid => ∀ i ∈ findProcess s pid, s.unmanaged i → i ∉ s.list (s.homeQueue i)
  | _ => True

/-- The condition on a call and the state before it. -/
def DeadGuard (s : State) (op : Op) : Prop := LinkOk s op ∧ UnlinkOk s op

instance (s : State) (op : Op) : Decidable (UnlinkOk s op) := by
  delta UnlinkOk
  exact match op with
  | .create _ _ | .terminate _ | .yield | .tick | .schedule => inferInstance

instance (s : State) (op : Op) : Decidable (DeadGuard s op) :=
  inferInstanceAs (Decidable (_ ∧ _))

variable {s s' s₁ s₂ : State} {qs : Queues} {op : Op} {config : Config} {i p : Slot}

theorem findProcess_spec {pid : UInt32} (h : findProcess s pid = some i) :
    (s.pcb i).pid = pid ∧ (s.pcb i).state ≠ .terminated := by
  simpa using List.find?_some h

/-! ## Steps -/

/-- A dispatch only runs what is on a list. -/
theorem Off.schedule (h : Shape s qs) (ho : Off s qs) (hs : schedule s = some s') :
    Off s' (s.afterSchedule qs) ∧
      ∀ p, (s'.pcb p).state = .terminated ↔ (s.pcb p).state = .terminated := by
  obtain ⟨-, heff⟩ := schedule_effect hs
  have hlist : ∀ p, (s.pcb p).state = .terminated → ¬ OnList (s.afterSchedule qs) p :=
    fun p ht hp => by
      obtain ⟨hno, hcur⟩ := ho p ht
      cases hx : s.pick with
      | none =>
        unfold State.afterSchedule at hp
        rw [hx] at hp
        exact hno hp
      | some x =>
        rcases (onList_afterSchedule h hx).mp hp with ⟨hon, -⟩ | ⟨hc, -⟩
        · exact hno hon
        · exact hcur hc
  have hdead : ∀ p, (s'.pcb p).state = .terminated ↔ (s.pcb p).state = .terminated := by
    intro p
    rcases heff with ⟨-, hst⟩ | ⟨x, hx, -, hsw⟩
    · rw [hst.state]
    · obtain ⟨xs, hxs⟩ := pick_mem h hx
      rw [hsw.state]
      constructor
      · intro ht
        split at ht
        · cases ht
        · split at ht
          · cases ht
          · exact ht
      · intro ht
        obtain ⟨hno, hcur⟩ := ho p ht
        have hpx : p ≠ x := fun he => hno ⟨s.homeQueue x, by simp [hxs, he]⟩
        rw [if_neg hpx, if_neg hcur]
        exact ht
  refine ⟨fun p ht => ?_, hdead⟩
  have ht₀ := (hdead p).mp ht
  refine ⟨hlist p ht₀, ?_⟩
  rcases heff with ⟨-, hst⟩ | ⟨x, hx, -, hsw⟩
  · rw [hst.current]
    exact (ho p ht₀).2
  · rw [hsw.current]
    intro he
    obtain rfl := Option.some.inj he
    rw [hsw.state, if_pos rfl] at ht
    cases ht

/-- **A guarded call leaves a terminated process alone**, unless it takes its slot. -/
theorem step_off (h : Shape s qs) (ho : Off s qs) (hg : DeadGuard s op) (hs : Step s op s') :
    ∃ qs', Shape s' qs' ∧ Off s' qs' ∧ ∀ p, (s.pcb p).state = .terminated → ¬ Reuses s p op →
      (s'.pcb p).state = .terminated := by
  obtain ⟨hlink, hunlink⟩ := hg
  cases op with
  | create name priority =>
    obtain ⟨⟨s₁, o⟩, hcr, rfl⟩ := Option.map_eq_some_iff.mp hs
    rcases create_cases hcr with ⟨-, rfl⟩ | ⟨p, s₀, hf, hcreated, ha⟩
    · exact ⟨qs, h, ho, fun _ ht _ => ht⟩
    · have hout := hlink p hf
      rw [h.list] at hout
      obtain ⟨h1, -⟩ := create_shape h hcreated hout ha
      obtain ⟨l, -, rfl⟩ := addToReadyQueue_effect ha
      have hother : ∀ y, y ≠ p → s₀.pcb y = s.pcb y := hcreated.other
      refine ⟨_, h1, fun y ht => ?_, fun y ht hr => ?_⟩
      · have ht' : (s₀.pcb y).state = .terminated := ht
        have hy : y ≠ p := fun he => by
          rw [he, hcreated.state] at ht'
          cases ht'
        rw [hother y hy] at ht'
        obtain ⟨hno, hcur⟩ := ho y ht'
        refine ⟨fun hon => (onList_push.mp hon).elim hno hy, ?_⟩
        show s₀.current ≠ some y
        rw [hcreated.current]
        exact hcur
      · have hy : y ≠ p := fun he => hr (he ▸ hf)
        show (s₀.pcb y).state = .terminated
        rw [hother y hy]
        exact ht
  | terminate pid =>
    rcases terminate_cases hs with ⟨-, rfl⟩ | ⟨i, hf, hcase⟩
    · exact ⟨qs, h, ho, fun _ ht _ => ht⟩
    · obtain ⟨-, -, hstate⟩ := vacated_effect s i
      obtain ⟨hpid, -⟩ := findProcess_spec hf
      have hun := hunlink i hf
      rw [h.list] at hun
      have hoff : ∀ p, ((retire s i).pcb p).state = .terminated →
          ¬ OnList (s.afterRetire qs i) p := fun p ht hon => by
        obtain ⟨hon₀, hkeep⟩ := (onList_afterRetire h).mp hon
        rw [hstate] at ht
        by_cases hpi : p = i
        · subst hpi
          have hmem := h.onList_iff.mp hon₀
          rcases hkeep with hu | hno | ⟨-, hne⟩
          · exact hun hu hmem
          · exact hno hmem
          · exact hne rfl
        · rw [if_neg hpi] at ht
          exact (ho p ht).1 hon₀
      have hstays : ∀ p, (s.pcb p).state = .terminated →
          ((retire s i).pcb p).state = .terminated := fun p ht => by
        rw [hstate]
        split
        · rfl
        · exact ht
      rcases hcase with ⟨c, -, -, hsch⟩ | ⟨hno, rfl⟩
      · obtain ⟨h1, -⟩ := vacated_shape h (hlink i hf)
        obtain ⟨h2, -⟩ := schedule_shape h1 (scheduleOk_of_none rfl) hsch
        obtain ⟨h3, h4⟩ := Off.schedule h1 (fun p ht => ⟨hoff p ht, nofun⟩) hsch
        exact ⟨_, h2, h3, fun p ht _ => (h4 p).mpr (hstays p ht)⟩
      · obtain ⟨h1, -⟩ := retire_shape h (hlink i hf)
        refine ⟨_, h1, fun p ht => ⟨hoff p ht, fun hc => ?_⟩, fun p ht _ => hstays p ht⟩
        obtain ⟨hst, -⟩ := retire_effect s i
        have hc : s.current = some p := hst.current ▸ hc
        rw [hstate] at ht
        by_cases hpi : p = i
        · exact hno p hc (hpi ▸ hpid)
        · rw [if_neg hpi] at ht
          exact (ho p ht).2 hc
  | yield =>
    cases hcur : s.current with
    | none =>
      have hsch : Scheduler.schedule s = some s' := (yield_none hcur).symm.trans hs
      obtain ⟨h1, -⟩ := schedule_shape h (scheduleOk_of_none hcur) hsch
      obtain ⟨h2, h3⟩ := Off.schedule h ho hsch
      exact ⟨_, h1, h2, fun p ht _ => (h3 p).mpr ht⟩
    | some c =>
      have hl := hlink c hcur
      obtain ⟨h1, -⟩ := yield_shape h hcur hl hs
      have hst := yield_lone hcur hl hs
      have hstate := fun p => (hst.state p).trans (setState_state s c .ready p)
      refine ⟨_, h1, fun p ht => ?_, fun p ht _ => ?_⟩
      · rw [hstate] at ht
        split at ht
        · cases ht
        · rename_i hpc
          obtain ⟨hno, hcp⟩ := ho p ht
          refine ⟨fun hon => (onList_afterYield.mp hon).elim hno fun hr => hpc hr.2, ?_⟩
          rw [hst.current]
          exact hcp
      · rw [hstate, if_neg fun he => (ho p ht).2 (by rw [he, hcur])]
        exact ht
  | tick =>
    obtain ⟨qs', h1, -, hto, -⟩ := tick_shape h hlink hs
    obtain ⟨-, hcur, hstate⟩ := tick_lone hlink hs
    refine ⟨qs', h1, fun p ht => ?_, fun p ht _ => ?_⟩
    · rcases hstate p with he | ⟨-, hr⟩
      · obtain ⟨hno, hcp⟩ := ho p (he ▸ ht)
        exact ⟨fun hon => (hto p hon).elim hno hcp, hcur ▸ hcp⟩
      · cases hr.symm.trans ht
    · rcases hstate p with he | ⟨hcp, -⟩
      · exact he.trans ht
      · exact absurd hcp (ho p ht).2
  | schedule =>
    obtain ⟨h1, -⟩ := schedule_shape h hlink hs
    obtain ⟨h2, h3⟩ := Off.schedule h ho hs
    exact ⟨_, h1, h2, fun p ht _ => (h3 p).mpr ht⟩

/-! ## Runs -/

theorem run_off (hrun : Reaches Step DeadGuard (schedulerInit config) s) :
    ∃ qs, Shape s qs ∧ Off s qs := by
  refine hrun.invariant (I := fun s => ∃ qs, Shape s qs ∧ Off s qs) ?_ ?_
  · exact ⟨fun _ => [], Shape.init config, fun _ ht => nomatch ht⟩
  · rintro s op s' ⟨qs, h, ho⟩ hg hs
    obtain ⟨qs', h1, h2, -⟩ := step_off h ho hg hs
    exact ⟨qs', h1, h2⟩

/-- A guarded call that does not take the slot `p`. -/
def DeadGuardBut (p : Slot) (s : State) (op : Op) : Prop := DeadGuard s op ∧ ¬ Reuses s p op

instance (p : Slot) (s : State) (op : Op) : Decidable (DeadGuardBut p s op) := by
  delta DeadGuardBut Reuses
  exact match op with
  | .create _ _ | .terminate _ | .yield | .tick | .schedule => inferInstance

/-- **In a guarded run a terminated process stays terminated and never is the current one**, until
its slot is taken. -/
theorem terminated_stays (hrun : Reaches Step DeadGuard (schedulerInit config) s₁)
    (ht : (s₁.pcb p).state = .terminated) (hlater : Reaches Step (DeadGuardBut p) s₁ s₂) :
    (s₂.pcb p).state = .terminated ∧ s₂.current ≠ some p := by
  obtain ⟨qs, h, ho⟩ := run_off hrun
  obtain ⟨qs', -, ho', ht'⟩ := hlater.invariant
    (I := fun s => ∃ qs, Shape s qs ∧ Off s qs ∧ (s.pcb p).state = .terminated)
    ⟨qs, h, ho, ht⟩ (by
      rintro s op s' ⟨qs, h, ho, ht⟩ ⟨hg, hr⟩ hs
      obtain ⟨qs', h1, h2, h3⟩ := step_off h ho hg hs
      exact ⟨qs', h1, h2, h3 p ht hr⟩)
  exact ⟨ht', (ho' p ht').2⟩

theorem terminated_stays_run : ∃ s₁ s₂, (s₁.pcb 0).state = .terminated ∧ s₂.current = some 1 ∧
    Reaches Step (DeadGuardBut 0) s₁ s₂ ∧ (s₂.pcb 0).state = .terminated ∧
      s₂.current ≠ some 0 := by
  have hx : ((exec step (fun s op => decide (DeadGuard s op))
      (schedulerInit ⟨.mlfq, 10, 1, 4, 100⟩)
      [.create [] 0, .create [] 1, .schedule, .terminate 1]).bind fun s₁ =>
        (exec step (fun s op => decide (DeadGuardBut 0 s op)) s₁ [.tick, .yield, .schedule]).map
          fun s₂ => ((s₁.pcb 0).state, s₂.current)) = some (.terminated, some 1) := by
    decide +kernel
  obtain ⟨s₁, h₁, hx⟩ := Option.bind_eq_some_iff.mp hx
  obtain ⟨s₂, h₂, hobs⟩ := Option.map_eq_some_iff.mp hx
  simp only [Prod.mk.injEq] at hobs
  obtain ⟨ht, hc⟩ := hobs
  have hlater := run_of_exec h₂
  exact ⟨s₁, s₂, ht, hc, hlater, terminated_stays (run_of_exec h₁) ht hlater⟩

/-- A process of priority 200 waits at the lowest level, is terminated, and is dispatched. -/
theorem terminated_runs : ¬ ∀ config p s₁ s₂,
    Reaches Step anyAction (schedulerInit config) s₁ → (s₁.pcb p).state = .terminated →
    Reaches Step (fun s op => ¬ Reuses s p op) s₁ s₂ →
    (s₂.pcb p).state = .terminated ∧ s₂.current ≠ some p := by
  intro hall
  have hx : ((exec step (fun _ _ => true) (schedulerInit ⟨.mlfq, 10, 1, 4, 100⟩)
      [.create [] 200, .terminate 1]).bind fun s₁ =>
        (exec step (fun _ op => decide (op = .schedule)) s₁ [.schedule]).map
          fun s₂ => ((s₁.pcb 0).state, s₂.current)) = some (.terminated, some 0) := by
    decide +kernel
  obtain ⟨s₁, h₁, hx⟩ := Option.bind_eq_some_iff.mp hx
  obtain ⟨s₂, h₂, hobs⟩ := Option.map_eq_some_iff.mp hx
  simp only [Prod.mk.injEq] at hobs
  obtain ⟨ht, hc⟩ := hobs
  have hrun₂ : Reaches Step (fun _ op => op = .schedule) s₁ s₂ := run_of_exec h₂
  have hlater : Reaches Step (fun s op => ¬ Reuses s 0 op) s₁ s₂ := hrun₂.mono fun _ _ ho hr => by
    rw [ho] at hr
    exact hr
  exact (hall _ 0 s₁ s₂ (anyRun_of_exec h₁) ht hlater).2 hc

end OSCompas.Scheduler
