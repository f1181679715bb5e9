import OSCompas.Scheduler.Time

/-!
# Terminating a pid nobody has

`scheduler_terminate_process` looks for a slot with the pid whose state is not
`PROCESS_TERMINATED`.  A slot that was never used has the pid 0 and the state `PROCESS_NEW`, and a
terminated process that is dispatched has the state `PROCESS_RUNNING`.

* `Roll` — a state beside the pids of the processes created and not terminated on the way to it;
* `DispatchOk` — a call dispatches no terminated process;
* `Unaffected` — the process table, the queues, the current process and the statistics stay.

Principal results: `step_enrolled`, `run_enrolled` and `unknown_pid_iff`.
-/

set_option autoImplicit false

namespace OSCompas.Scheduler

open Function Runs

variable {s s' : State} {p i : Slot} {pid n : UInt32} {config : Config} {op : Op}

/-! ## The roll -/

/-- A state, beside the pids of the processes created and not yet terminated. -/
structure Roll where
  state : State
  live : List UInt32

def Roll.init (config : Config) : Roll := ⟨schedulerInit config, []⟩

/-- The call `op` led to the state `s`. -/
def Roll.record (r : Roll) (op : Op) (s : State) : Roll :=
  match op with
  | .create _ _ =>
    match findFreePcb r.state with
    | none => { r with state := s }
    | some _ => ⟨s, r.state.nextPid :: r.live⟩
  | .terminate pid => ⟨s, r.live.erase pid⟩
  | _ => { r with state := s }

def stepRoll (r : Roll) (op : Op) : Option Roll := (step r.state op).map (r.record op)

def RollStep (r : Roll) (op : Op) (r' : Roll) : Prop := stepRoll r op = some r'

/-- The call dispatches no terminated process. -/
def DispatchOk (s : State) : Op → Prop
  | .create _ _ => True
  | .terminate pid => ∀ i ∈ findProcess s pid, (∃ c ∈ s.current, (s.pcb c).pid = pid) →
      ∀ x ∈ s.pickWithout i, x ≠ i ∧ (s.pcb x).state ≠ .terminated
  | .yield => PicksLive s (s.current.elim s.pick s.pickWith)
  | .tick => ∀ c ∈ s.current, s.expires c → PicksLive s (s.pickWith c)
  | .schedule => PicksLive s s.pick

instance (s : State) (op : Op) : Decidable (DispatchOk s op) := by
  delta DispatchOk
  exact match op with
  | .create _ _ | .terminate _ | .yield | .tick | .schedule => inferInstance

def RollOk (r : Roll) (op : Op) : Prop := DispatchOk r.state op

instance (r : Roll) (op : Op) : Decidable (RollOk r op) :=
  inferInstanceAs (Decidable (DispatchOk _ _))

/-! ## Slots in use -/

/-- The slots that `scheduler_terminate_process` may find for the pid `n`. -/
def State.alive (s : State) (n : UInt32) : Finset Slot :=
  Finset.univ.filter fun p => (s.pcb p).pid = n ∧ (s.pcb p).state ≠ .terminated

@[simp] theorem mem_alive : p ∈ s.alive n ↔ (s.pcb p).pid = n ∧ (s.pcb p).state ≠ .terminated := by
  simp [State.alive]

/-- The lookup fails exactly if there is none. -/
theorem findProcess_none : findProcess s n = none ↔ s.alive n = ∅ := by
  unfold findProcess
  rw [List.find?_eq_none, Finset.eq_empty_iff_forall_notMem]
  simp [State.alive]

theorem Kept.alive (h : Kept s s') (n : UInt32) : s'.alive n = s.alive n := by
  ext p
  simp [h.pid, h.dead]

/-- **The roll is kept**: every slot in use belongs to a process on it, but for the slots with the
pid 0. -/
structure Enrolled (r : Roll) : Prop where
  current : r.state.CurrentAlive
  counted : ∀ n, n ≠ 0 → (r.state.alive n).card ≤ r.live.count n

theorem Enrolled.init (config : Config) : Enrolled (.init config) where
  current := nofun
  counted n hn := by
    have hnone : (schedulerInit config).alive n = ∅ := by
      refine Finset.eq_empty_iff_forall_notMem.mpr fun p hp => hn ?_
      exact (mem_alive.mp hp).1.symm
    show ((schedulerInit config).alive n).card ≤ 0
    rw [hnone, Finset.card_empty]

theorem Enrolled.kept {r : Roll} (h : Enrolled r) (hk : Kept r.state s') :
    Enrolled { r with state := s' } :=
  ⟨hk.current, fun n hn => by
    show (s'.alive n).card ≤ _
    rw [hk.alive]
    exact h.counted n hn⟩

/-- A creation enters its pid. -/
theorem Enrolled.create {r : Roll} {q : Pcb} (h : Enrolled r) (hpid : q.pid = r.state.nextPid)
    (hready : q.state = .ready) (hpcb : s'.pcb = update r.state.pcb p q)
    (hcur : s'.current = r.state.current) :
    Enrolled ⟨s', r.state.nextPid :: r.live⟩ := by
  have hself : s'.pcb p = q := by rw [hpcb, update_self]
  have hother : ∀ y, y ≠ p → s'.pcb y = r.state.pcb y := fun y hy => by
    rw [hpcb, update_of_ne hy]
  refine ⟨fun c hc => ?_, fun n hn => ?_⟩
  · by_cases hcp : c = p
    · rw [hcp, hself, hready]
      exact nofun
    · rw [hother c hcp]
      exact h.current c (hcur ▸ hc)
  · have hle := h.counted n hn
    by_cases he : n = r.state.nextPid
    · -- one slot more
      have hsub : s'.alive n ⊆ insert p (r.state.alive n) := fun y hy => by
        rw [Finset.mem_insert, mem_alive]
        by_cases hyp : y = p
        · exact .inl hyp
        · rw [mem_alive, hother y hyp] at hy
          exact .inr hy
      have hcard := (Finset.card_le_card hsub).trans (Finset.card_insert_le _ _)
      rw [he, List.count_cons_self, ← he]
      exact hcard.trans (Nat.succ_le_succ hle)
    · have hsub : s'.alive n ⊆ r.state.alive n := fun y hy => by
        rw [mem_alive] at hy ⊢
        by_cases hyp : y = p
        · rw [hyp, hself, hpid] at hy
          exact absurd hy.1.symm he
        · rwa [hother y hyp] at hy
      rw [List.count_cons_of_ne (Ne.symm he)]
      exact (Finset.card_le_card hsub).trans hle

/-- A termination strikes its pid off, and finds one slot with it if there is one. -/
theorem Enrolled.strike {r : Roll} (h : Enrolled r) (hcur : s'.CurrentAlive)
    (hsub : ∀ n, s'.alive n ⊆ r.state.alive n)
    (hstrict : (r.state.alive pid).Nonempty → (s'.alive pid).card < (r.state.alive pid).card) :
    Enrolled ⟨s', r.live.erase pid⟩ := by
  refine ⟨hcur, fun n hn => ?_⟩
  have hle := h.counted n hn
  by_cases he : n = pid
  · subst he
    rw [List.count_erase_self]
    by_cases hne : (r.state.alive n).Nonempty
    · have hlt := hstrict hne
      dsimp only
      omega
    · rw [Finset.not_nonempty_iff_eq_empty] at hne
      have hnone := Finset.subset_empty.mp (hne ▸ hsub n)
      dsimp only
      rw [hnone, Finset.card_empty]
      exact Nat.zero_le _
  · rw [List.count_erase_of_ne he]
    exact (Finset.card_le_card (hsub n)).trans hle

/-- The slot that was found is not in use any more. -/
theorem retired_alive (hi : i ∈ s.alive pid) (hpid : ∀ p, (s'.pcb p).pid = (s.pcb p).pid)
    (hdead : ∀ p, (s'.pcb p).state = .terminated ↔ p = i ∨ (s.pcb p).state = .terminated) :
    s'.alive n ⊆ s.alive n ∧ (s'.alive pid).card < (s.alive pid).card := by
  have hsub : ∀ n, s'.alive n ⊆ s.alive n := fun n y hy => by
    rw [mem_alive, hpid, ne_eq, hdead] at hy
    rw [mem_alive]
    exact ⟨hy.1, fun ht => hy.2 (.inr ht)⟩
  refine ⟨hsub n, Finset.card_lt_card ⟨hsub pid, fun hall => ?_⟩⟩
  have hi' := hall hi
  rw [mem_alive, ne_eq, hdead] at hi'
  exact hi'.2 (.inl rfl)

/-! ## Runs -/

/-- **A call that dispatches no terminated process keeps the roll.** -/
theorem step_enrolled {r r' : Roll} (h : Enrolled r) (hok : RollOk r op)
    (hroll : RollStep r op r') : Enrolled r' := by
  obtain ⟨s', hs, rfl⟩ := Option.map_eq_some_iff.mp hroll
  cases op with
  | create name priority =>
    obtain ⟨⟨s₁, o⟩, hcr, rfl⟩ := Option.map_eq_some_iff.mp hs
    unfold Roll.record
    rcases create_filled hcr with ⟨hf, rfl⟩ | ⟨p, q, k, hf, ⟨hpid, -, hready⟩, -, hpcb, -, hc⟩
    · simp only [hf]
      exact h
    · simp only [hf]
      exact h.create hpid hready hpcb hc
  | terminate pid =>
    rcases terminate_cases hs with ⟨hf, rfl⟩ | ⟨i, hf, hcase⟩
    · refine h.strike h.current (fun _ => Finset.Subset.refl _) fun hne => ?_
      rw [findProcess_none.mp hf] at hne
      exact absurd hne Finset.not_nonempty_empty
    · obtain ⟨hi, hdead⟩ := findProcess_spec hf
      have hmem : i ∈ r.state.alive pid := mem_alive.mpr ⟨hi, hdead⟩
      obtain ⟨hprocs, hpicks, hstate⟩ := vacated_effect r.state i
      have hterm : ∀ p, ((retire r.state i).pcb p).state = .terminated ↔
          p = i ∨ (r.state.pcb p).state = .terminated := fun p => by
        rw [hstate]
        by_cases hp : p = i <;> simp [hp]
      rcases hcase with ⟨c, hc, hcp, hsch⟩ | ⟨hno, rfl⟩
      · have hk : Kept { retire r.state i with current := none } s' := by
          refine schedule_kept nofun (fun x hx => ?_) hsch
          rw [hpicks] at hx
          obtain ⟨hxi, hxd⟩ := hok i hf ⟨c, hc, hcp⟩ x hx
          show ((retire r.state i).pcb x).state ≠ .terminated
          rw [hstate, if_neg hxi]
          exact hxd
        have hall := fun n => retired_alive (n := n) hmem
          (fun p => (hk.pid p).trans (hprocs.pid p)) fun p => (hk.dead p).trans (hterm p)
        exact h.strike hk.current (fun n => (hall n).1) fun _ => (hall pid).2
      · have hcur : (retire r.state i).current = r.state.current :=
          (retire_effect r.state i).1.current
        have hall := fun n => retired_alive (n := n) hmem hprocs.pid hterm
        refine h.strike (fun c hc => ?_) (fun n => (hall n).1) fun _ => (hall pid).2
        rw [hcur] at hc
        have hci : c ≠ i := fun he => hno c hc (he ▸ hi)
        rw [hstate, if_neg hci]
        exact h.current c hc
  | yield => exact h.kept (yield_kept h.current hok hs)
  | tick => exact h.kept (tick_kept h.current hok hs)
  | schedule => exact h.kept (schedule_kept h.current hok hs)

theorem run_enrolled {r : Roll} (hrun : Reaches RollStep RollOk (.init config) r) : Enrolled r :=
  hrun.invariant (.init config) fun _ _ _ h hok hs => step_enrolled h hok hs

/-! ## The property -/

/-- Nothing that is read by other calls changed. -/
structure Unaffected (s s' : State) : Prop where
  table : s'.pcb = s.pcb
  queues : s'.links = s.links
  current : s'.current = s.current
  stats : s'.stats = s.stats

/-- A termination that finds a slot counts it. -/
theorem terminate_counts (hf : findProcess s pid = some i) (hs : terminateProcess s pid = some s') :
    s'.stats.processesCompleted = s.stats.processesCompleted + 1 := by
  have hnames : ∀ t : State, Names (fun _ => True) t := fun _ =>
    ⟨⟨fun _ _ _ => trivial, fun _ _ _ => trivial, fun _ _ _ => trivial, fun _ _ _ => trivial⟩,
      fun _ _ => trivial⟩
  obtain ⟨hcount, -⟩ := retire_counts s i
  rcases terminate_cases hs with ⟨hno, -⟩ | ⟨j, hj, hcase⟩
  · cases hno.symm.trans hf
  · obtain rfl := Option.some.inj (hf.symm.trans hj)
    rcases hcase with ⟨c, -, -, hsch⟩ | ⟨-, rfl⟩
    · exact (schedule_quiet (hnames _) hsch).completed.trans hcount
    · exact hcount

theorem terminate_unaffected_iff :
    (∃ s', terminateProcess s pid = some s' ∧ Unaffected s s') ↔ s.alive pid = ∅ := by
  rw [← findProcess_none]
  constructor
  · rintro ⟨s', hs, hsame⟩
    by_contra hne
    obtain ⟨i, hf⟩ := Option.ne_none_iff_exists'.mp hne
    have hcount := terminate_counts hf hs
    rw [hsame.stats] at hcount
    exact absurd hcount (by simp)
  · intro hf
    refine ⟨s, ?_, rfl, rfl, rfl, rfl⟩
    unfold terminateProcess
    rw [hf]

/-- **A pid that is not on the roll has no effect exactly if** it is not 0, or no slot with the
pid 0 is left that is not terminated. -/
theorem unknown_pid_iff {r : Roll} (hrun : Reaches RollStep RollOk (.init config) r)
    (hpid : pid ∉ r.live) : (∃ s', terminateProcess r.state pid = some s' ∧ Unaffected r.state s') ↔
      (pid = 0 → ∀ p, (r.state.pcb p).pid = 0 → (r.state.pcb p).state = .terminated) := by
  rw [terminate_unaffected_iff]
  by_cases h0 : pid = 0
  · subst h0
    rw [Finset.eq_empty_iff_forall_notMem]
    simp
  · refine iff_of_true ?_ fun he => absurd he h0
    have hle := (run_enrolled hrun).counted pid h0
    rw [List.count_eq_zero.mpr hpid, Nat.le_zero, Finset.card_eq_zero] at hle
    exact hle

/-- A pid is terminated for the second time. -/
theorem unknown_pid_iff_twice : ∃ r : Roll, r.live = [2] ∧ r.state.stats.processesCompleted = 1 ∧
    ((∃ s', terminateProcess r.state 1 = some s' ∧ Unaffected r.state s') ↔
      ((1 : UInt32) = 0 → ∀ p, (r.state.pcb p).pid = 0 →
        (r.state.pcb p).state = .terminated)) := by
  have hx : (exec stepRoll (fun r op => decide (RollOk r op)) (.init ⟨.fifo, 10, 0, 0, 0⟩)
      [.create [] 0, .schedule, .create [] 0, .tick, .terminate 1]).map
      (fun r => (r.live, r.state.stats.processesCompleted)) = some ([2], 1) := by decide +kernel
  obtain ⟨r, hr, hobs⟩ := Option.map_eq_some_iff.mp hx
  simp only [Prod.mk.injEq] at hobs
  have hrun : Reaches RollStep RollOk (.init ⟨.fifo, 10, 0, 0, 0⟩) r :=
    reaches_of_exec (fun _ _ h => of_decide_eq_true h) (fun _ _ _ h => h) hr
  exact ⟨r, hobs.1, hobs.2, unknown_pid_iff hrun (by simp [hobs.1])⟩

/-- Right after `scheduler_init` the pid 0 is found in a slot that was never used. -/
theorem unknown_pid_found : ¬ ∀ config (r : Roll) pid,
    Reaches RollStep anyAction (.init config) r → pid ∉ r.live →
    ∃ s', terminateProcess r.state pid = some s' ∧ Unaffected r.state s' := by
  intro hall
  obtain ⟨s', hs, hsame⟩ := hall ⟨.fifo, 10, 0, 0, 0⟩ _ 0 .refl (by simp [Roll.init])
  have hx : (terminateProcess (schedulerInit ⟨.fifo, 10, 0, 0, 0⟩) 0).map
      (·.stats.processesCompleted) = some 1 := by decide +kernel
  have hs' : terminateProcess (schedulerInit ⟨.fifo, 10, 0, 0, 0⟩) 0 = some s' := hs
  rw [hs', Option.map_some, hsame.stats] at hx
  cases hx

end OSCompas.Scheduler
