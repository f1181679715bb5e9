import OSCompas.Scheduler.Calls

/-!
# No process is lost

Every ready process waits in the queue of its policy, as long as no queue is reset while it still
holds a process.

* `Found`, `NothingLost` — the walk from the head of its queue meets the process;
* `Cover` — the same on the lists;
* `ResetOk`, `DropOk`, `CoverGuard` — the condition.

Principal results: `Cover.schedule`, `step_cover`, `no_process_lost` and `process_lost`.
-/

set_option autoImplicit false

namespace OSCompas.Scheduler

open Function Intrusive Chain Runs

/-- Walking from the head of its queue meets `p`. -/
def Found (s : State) (p : Slot) : Prop :=
  OnChain (fun o => o.bind s.links.next) none (s.links.queue (s.homeQueue p)).head (some p)

/-- Every ready process but the current one is found in its queue. -/
def NothingLost (s : State) : Prop :=
  ∀ p, (s.pcb p).state = .ready → s.current ≠ some p → Found s p

/-- Every ready process but the current one is on a list. -/
def Cover (s : State) (qs : Queues) : Prop :=
  ∀ p, (s.pcb p).state = .ready → s.current ≠ some p → OnList qs p

variable {s s' : State} {qs : Queues} {op : Op} {config : Config}

theorem Cover.nothingLost (h : Shape s qs) (hv : Cover s qs) : NothingLost s := by
  intro p hr hc
  have hp := h.onList_iff.mp (hv p hr hc)
  exact (h.threaded.queue (s.homeQueue p)).onChain_iff.mpr hp

/-! ## The condition -/

/-- Taking `i` out resets no queue of another ready process that waits. -/
def ResetOk (s : State) (pid : UInt32) (i : Slot) : Prop :=
  s.unmanaged i ∨ i ∈ s.list (s.homeQueue i) ∨ ∀ y ∈ s.list (s.homeQueue i),
    (s.pcb y).state = .ready → s.current = some y ∧ (s.pcb y).pid ≠ pid

instance (s : State) (pid : UInt32) (i : Slot) : Decidable (ResetOk s pid i) :=
  inferInstanceAs (Decidable (_ ∨ _))

/-- A ready current process that is dropped for having the pid of another one waits. -/
def DropOk (s : State) (pid : UInt32) (i : Slot) : Prop :=
  ∀ c ∈ s.current, (s.pcb c).pid = pid → c ≠ i → (s.pcb c).state = .ready →
    c ∈ s.list (s.homeQueue c)

instance (s : State) (pid : UInt32) (i : Slot) : Decidable (DropOk s pid i) := by
  delta DropOk
  infer_instance

/-- No queue is reset that still holds a ready process. -/
def CoverOk (s : State) : Op → Prop
  | .create _ _ => True
  | .terminate pid => ∀ i ∈ findProcess s pid, ResetOk s pid i ∧ DropOk s pid i
  | .yield => True
  | .tick => True
  | .schedule => ∀ x ∈ s.pick, ∀ c ∈ s.current, c ≠ x → ¬ s.wipes s.list x c

instance (s : State) (op : Op) : Decidable (CoverOk s op) := by
  delta CoverOk
  exact match op with
  | .create _ _ | .terminate _ | .yield | .tick | .schedule => inferInstance

/-- The condition on a call and the state before it. -/
def CoverGuard (s : State) (op : Op) : Prop := LinkOk s op ∧ CoverOk s op

instance (s : State) (op : Op) : Decidable (CoverGuard s op) :=
  inferInstanceAs (Decidable (_ ∧ _))

/-! ## Runs -/

/-- A dispatch that resets no queue loses nothing. -/
theorem Cover.schedule (h : Shape s qs) (hv : Cover s qs)
    (hw : ∀ x ∈ s.pick, ∀ c ∈ s.current, c ≠ x → ¬ s.wipes qs x c)
    (hs : schedule s = some s') : Cover s' (s.afterSchedule qs) := by
  obtain ⟨-, heff⟩ := schedule_effect hs
  intro p hr hc
  rcases heff with ⟨hpick, hst⟩ | ⟨x, hx, hne, hsw⟩
  · rw [hst.state] at hr
    rw [hst.current] at hc
    have hp := hv p hr hc
    cases hx : s.pick with
    | none =>
      unfold State.afterSchedule
      rw [hx]
      exact hp
    | some x =>
      refine (onList_afterSchedule h hx).mpr (.inl ⟨hp, fun he => hc ?_⟩)
      rw [he, ← hx]
      exact (hpick.resolve_left (by simp [hx])).symm
  · rw [hsw.current] at hc
    have hpx : p ≠ x := fun he => hc (by rw [he])
    rw [hsw.state, if_neg hpx] at hr
    refine (onList_afterSchedule h hx).mpr ?_
    by_cases hcur : s.current = some p
    · exact .inr ⟨hcur, by rw [if_neg hpx]; exact hw x hx p hcur hpx⟩
    · rw [if_neg hcur] at hr
      exact .inl ⟨hv p hr hcur, hpx⟩

/-- Only the list of `i` is touched. -/
theorem Cover.retire {pid : UInt32} {i p : Slot} (h : Shape s qs) (hv : Cover s qs)
    (hlist : ResetOk s pid i) (hcur : DropOk s pid i) (hr : (s.pcb p).state = .ready)
    (hpi : p ≠ i) (hc : s.current = some p → (s.pcb p).pid = pid) :
    OnList (s.afterRetire qs i) p := by
  unfold ResetOk at hlist
  unfold DropOk at hcur
  rw [h.list] at hlist hcur
  have hp : OnList qs p := by
    by_cases hcp : s.current = some p
    · exact h.onList_iff.mpr (hcur p hcp (hc hcp) hpi hr)
    · exact hv p hr hcp
  refine (onList_afterRetire h).mpr ⟨hp, ?_⟩
  rcases hlist with hu | hi | hno
  · exact .inl hu
  · exact .inr (.inr ⟨hi, hpi⟩)
  · refine .inr (.inl fun hmem => ?_)
    obtain ⟨hcp, hne⟩ := hno p hmem hr
    exact hne (hc hcp)

/-- **A guarded call loses no process.** -/
theorem step_cover (h : Shape s qs) (hv : Cover s qs) (hg : CoverGuard s op)
    (hs : Step s op s') : ∃ qs', Shape s' qs' ∧ Cover s' qs' := by
  obtain ⟨hlink, hcover⟩ := hg
  cases op with
  | create name priority =>
    obtain ⟨⟨s₁, o⟩, hcr, rfl⟩ := Option.map_eq_some_iff.mp hs
    rcases create_cases hcr with ⟨-, rfl⟩ | ⟨p, s₀, hf, hcreated, ha⟩
    · exact ⟨qs, h, hv⟩
    · have hout := hlink p hf
      rw [h.list] at hout
      obtain ⟨h1, -⟩ := create_shape h hcreated hout ha
      refine ⟨_, h1, fun y hr hc => onList_push.mpr ?_⟩
      obtain ⟨l, -, rfl⟩ := addToReadyQueue_effect ha
      by_cases hy : y = p
      · exact .inr hy
      · have hr' : (s₀.pcb y).state = .ready := hr
        have hc' : s₀.current ≠ some y := hc
        rw [hcreated.other y hy] at hr'
        rw [hcreated.current] at hc'
        exact .inl (hv y hr' hc')
  | terminate pid =>
    rcases terminate_cases hs with ⟨-, rfl⟩ | ⟨i, hf, hcase⟩
    · exact ⟨qs, h, hv⟩
    · obtain ⟨-, -, hstate⟩ := vacated_effect s i
      have hready : ∀ p, ((retire s i).pcb p).state = .ready →
          p ≠ i ∧ (s.pcb p).state = .ready := fun p hr => by
        rw [hstate] at hr
        by_cases hpi : p = i
        · rw [if_pos hpi] at hr
          cases hr
        · rw [if_neg hpi] at hr
          exact ⟨hpi, hr⟩
      rcases hcase with ⟨c, hcur, hpid, hsch⟩ | ⟨hno, rfl⟩
      · obtain ⟨h1, -⟩ := vacated_shape h (hlink i hf)
        obtain ⟨h2, -⟩ := schedule_shape h1 (scheduleOk_of_none rfl) hsch
        refine ⟨_, h2, Cover.schedule h1 (fun p hr _ => ?_) (fun x _ d hd => nomatch hd) hsch⟩
        obtain ⟨hpi, hr⟩ := hready p hr
        refine Cover.retire h hv (hcover i hf).1 (hcover i hf).2 hr hpi fun hcp => ?_
        obtain rfl := Option.some.inj (hcur.symm.trans hcp)
        exact hpid
      · obtain ⟨h1, -⟩ := retire_shape h (hlink i hf)
        refine ⟨_, h1, fun p hr hc => ?_⟩
        obtain ⟨hpi, hr⟩ := hready p hr
        obtain ⟨hst, -⟩ := retire_effect s i
        rw [hst.current] at hc
        exact Cover.retire h hv (hcover i hf).1 (hcover i hf).2 hr hpi fun hcp => absurd hcp hc
  | yield =>
    cases hcur : s.current with
    | none =>
      have hsch : Scheduler.schedule s = some s' := (yield_none hcur).symm.trans hs
      obtain ⟨h1, -⟩ := schedule_shape h (scheduleOk_of_none hcur) hsch
      refine ⟨_, h1, Cover.schedule h hv (fun _ _ c hc => ?_) hsch⟩
      exact nomatch hcur.symm.trans hc
    | some c =>
      have hl := hlink c hcur
      obtain ⟨h1, -⟩ := yield_shape h hcur hl hs
      have hst := yield_lone hcur hl hs
      refine ⟨_, h1, fun p hr hc => onList_afterYield.mpr (.inl ?_)⟩
      have hc : s.current ≠ some p := hst.current ▸ hc
      rw [hst.state, setState_state, if_neg (fun he => hc (by rw [he, hcur]))] at hr
      exact hv p hr hc
  | tick =>
    obtain ⟨qs', h1, hon, -, -⟩ := tick_shape h hlink hs
    obtain ⟨-, hcur, hstate⟩ := tick_lone hlink hs
    refine ⟨qs', h1, fun p hr hc => hon p ?_⟩
    rw [hcur] at hc
    rcases hstate p with he | ⟨hcp, -⟩
    · exact hv p (he ▸ hr) hc
    · exact absurd hcp hc
  | schedule =>
    have hw : ∀ x ∈ s.pick, ∀ c ∈ s.current, c ≠ x → ¬ s.wipes s.list x c := hcover
    rw [h.list] at hw
    obtain ⟨h1, -⟩ := schedule_shape h hlink hs
    exact ⟨_, h1, Cover.schedule h hv hw hs⟩

theorem run_cover (hrun : Reaches Step CoverGuard (schedulerInit config) s) :
    ∃ qs, Shape s qs ∧ Cover s qs := by
  refine hrun.invariant (I := fun s => ∃ qs, Shape s qs ∧ Cover s qs) ?_ ?_
  · exact ⟨fun _ => [], Shape.init config, fun _ hr => nomatch hr⟩
  · rintro s op s' ⟨qs, h, hv⟩ hg hs
    exact step_cover h hv hg hs

/-- **In a guarded run every ready process but the current one is found in its queue.** -/
theorem no_process_lost (hrun : Reaches Step CoverGuard (schedulerInit config) s) :
    NothingLost s := by
  obtain ⟨qs, h, hv⟩ := run_cover hrun
  exact hv.nothingLost h

theorem no_process_lost_run : ∃ s, (s.pcb 1).state = .ready ∧
    Reaches Step CoverGuard (schedulerInit ⟨.rr, 10, 1, 4, 100⟩) s ∧ NothingLost s := by
  have hx : (exec step (fun s op => decide (CoverGuard s op))
      (schedulerInit ⟨.rr, 10, 1, 4, 100⟩) [.create [] 0, .create [] 0, .create [] 0, .schedule,
        .tick, .terminate 3]).map (fun s => (s.pcb 1).state) = some .ready := by decide +kernel
  obtain ⟨s, hs, hr⟩ := Option.map_eq_some_iff.mp hx
  have hrun := run_of_exec hs
  exact ⟨s, hr, hrun, no_process_lost hrun⟩

/-- The current process is terminated, and the queue that it is not in is reset. -/
theorem process_lost : ¬ ∀ config s,
    Reaches Step anyAction (schedulerInit config) s → NothingLost s := by
  intro hall
  have hx : (exec step (fun _ _ => true) (schedulerInit ⟨.fifo, 10, 0, 4, 100⟩)
      [.create [] 0, .create [] 0, .schedule, .terminate 1]).map
      (fun s => ((s.pcb 1).state, s.current, (s.links.queue (s.homeQueue 1)).head)) =
      some (.ready, none, none) := by decide +kernel
  obtain ⟨s, hs, hobs⟩ := Option.map_eq_some_iff.mp hx
  simp only [Prod.mk.injEq] at hobs
  obtain ⟨hready, hcur, hhead⟩ := hobs
  have hfound := hall _ s (anyRun_of_exec hs) 1 hready (by simp [hcur])
  unfold Found at hfound
  rw [hhead, (isChain_nil.mpr rfl).onChain_iff] at hfound
  cases hfound

end OSCompas.Scheduler
