import OSCompas.Kernel.Times

/-!
# The accounts of reaped processes

`scheduler_reap_process` adds to `total_wait_time` the lifetime of the process less the time it has
used, and divides `total_runtime` by the number of processes for `avg_turnaround_time`.  A ledger
beside the state counts the same without bounds.

* `Ledger`, `Booked` — the ledger, and a call with its entry;
* `Clocked` — used time fits between creation and now, or the termination of a zombie;
* `Ledger.Even` — the time used is in the same multiple of the number of processes as the lifetimes.

Principal results: `step_clocked`, `waiting_time_exact` and `avg_turnaround_iff`.
-/

set_option autoImplicit false

namespace OSCompas.Kernel

open Function Runs

/-- `PCB_LIFETIME`, and `PCB_TURNAROUND_TIME`. -/
def Pcb.lifetime (q : Pcb) : UInt32 := q.timeTerminated - q.timeCreated

/-- The ticks, the reaped processes, and the sums of their lifetimes and of the time they used. -/
structure Ledger where
  ticks : Nat
  reaped : Nat
  lifetimes : Nat
  used : Nat
  deriving DecidableEq, Repr

/-- The entry of a call. -/
def Ledger.book (H : Helpers) (s : State) (op : Op) (L : Ledger) : Ledger :=
  match op with
  | .tick => { L with ticks := L.ticks + 1 }
  | .reap pid =>
    match H.processTableFind s.table pid with
    | none => L
    | some p =>
      if (reapProcess H s pid).2 = 0 then
        { L with
          reaped := L.reaped + 1
          lifetimes := L.lifetimes + (s.pcb p).lifetime.toNat
          used := L.used + (s.pcb p).timeUsed.toNat }
      else L
  | _ => L

def stepBooked (H : Helpers) (t : State × Ledger) (op : Op) : Option (State × Ledger) :=
  (step H t.1 op).map fun s' => (s', t.2.book H t.1 op)

/-- A call that returns, with its entry. -/
def Booked (H : Helpers) (t : State × Ledger) (op : Op) (t' : State × Ledger) : Prop :=
  stepBooked H t op = some t'

/-- A run from `scheduler_init`. -/
abbrev Accounts (H : Helpers) (statics : Statics) (config : Option Config) :
    State × Ledger → Prop :=
  Reaches (Booked H) anyAction (schedulerInit H statics config, ⟨0, 0, 0, 0⟩)

variable {H : Helpers} {s s' v : State} {t t' : State × Ledger} {op : Op} {pid : UInt32} {n : Nat}
  {statics : Statics} {config : Option Config}

theorem Booked.parts (h : Booked H t op t') : Step H t.1 op t'.1 ∧ t'.2 = t.2.book H t.1 op := by
  obtain ⟨s', hs, rfl⟩ := Option.map_eq_some_iff.mp h
  exact ⟨hs, rfl⟩

/-- Time goes by in ticks. -/
theorem Booked.ticks (h : Booked H t op t') :
    t'.2.ticks = if op = .tick then t.2.ticks + 1 else t.2.ticks := by
  rw [h.parts.2]
  cases op with
  | reap pid =>
    rw [if_neg (by simp)]
    unfold Ledger.book
    dsimp only
    split
    · rfl
    · split <;> rfl
  | _ => rfl

/-! ## Clocks -/

/-- After `n` ticks: no zombie is current, and the time a process has used fits between its creation
and now, or its termination if it is a zombie. -/
structure Clocked (s : State) (n : Nat) : Prop where
  ticks : s.systemTicks.toNat = n
  resting : ∀ p, (s.pcb p).state = .zombie → s.current ≠ some p
  used : ∀ p, s.table.allocated p = true →
    (s.pcb p).timeUsed.toNat + (s.pcb p).timeCreated.toNat ≤ n
  ended : ∀ p, s.table.allocated p = true → (s.pcb p).state = .zombie →
    (s.pcb p).timeUsed.toNat + (s.pcb p).timeCreated.toNat ≤ (s.pcb p).timeTerminated.toNat

theorem Started.clocked (h : Started statics s) : Clocked s 0 where
  ticks := by
    rw [h.ticks]
    rfl
  resting := h.resting
  used p hp := by
    obtain ⟨hu, hc, -⟩ := h.processes p hp
    simp [hu, hc]
  ended p hp hz := absurd hz (h.processes p hp).2.2

theorem Clocked.kept (h : Clocked s n) (hk : Kept s s') : Clocked s' n := by
  have htimes : ∀ p, (s'.pcb p).timeUsed = (s.pcb p).timeUsed ∧
      (s'.pcb p).timeCreated = (s.pcb p).timeCreated ∧
      (s'.pcb p).timeTerminated = (s.pcb p).timeTerminated := by
    intro p
    have ht := hk.times p
    exact ⟨congrArg (·.1) ht, congrArg (·.2.1) ht, congrArg (·.2.2) ht⟩
  refine ⟨?_, fun p hp hc => ?_, fun p hp => ?_, fun p hp hz => ?_⟩
  · rw [hk.ticks]
    exact h.ticks
  · exact h.resting p (hk.zombie p hp) (hk.resting p hp hc)
  · rw [hk.allocated] at hp
    rw [(htimes p).1, (htimes p).2.1]
    exact h.used p hp
  · rw [hk.allocated] at hp
    rw [(htimes p).1, (htimes p).2.1, (htimes p).2.2]
    exact h.ended p hp (hk.zombie p hz)

/-- One PCB is written; the clocks of the others stay. -/
theorem Clocked.elsewhere {p : Slot} (h : Clocked s n) (he : Elsewhere p s s')
    (hrests : (s'.pcb p).state = .zombie → s'.current ≠ some p)
    (hused : s'.table.allocated p = true →
      (s'.pcb p).timeUsed.toNat + (s'.pcb p).timeCreated.toNat ≤ n)
    (hended : s'.table.allocated p = true → (s'.pcb p).state = .zombie →
      (s'.pcb p).timeUsed.toNat + (s'.pcb p).timeCreated.toNat ≤
        (s'.pcb p).timeTerminated.toNat) : Clocked s' n := by
  refine ⟨?_, fun q hz => ?_, fun q hq => ?_, fun q hq hz => ?_⟩
  · rw [he.ticks]
    exact h.ticks
  · by_cases hqp : q = p
    · subst hqp
      exact hrests hz
    · rw [he.pcb q hqp] at hz
      exact fun hc => h.resting q hz (he.current q hc)
  · by_cases hqp : q = p
    · subst hqp
      exact hused hq
    · rw [he.allocated q hqp] at hq
      rw [he.pcb q hqp]
      exact h.used q hq
  · by_cases hqp : q = p
    · subst hqp
      exact hended hq hz
    · rw [he.allocated q hqp] at hq
      rw [he.pcb q hqp] at hz ⊢
      exact h.ended q hq hz

theorem Clocked.born {p : Slot} (h : Clocked s n) (hb : Born p s s') : Clocked s' n := by
  refine h.elsewhere hb.toElsewhere (fun hz => absurd hz hb.alive) (fun _ => ?_)
    fun _ hz => absurd hz hb.alive
  rw [hb.used, hb.created, h.ticks]
  simp

theorem Clocked.terminated {p : Slot} (h : Clocked s n) (hb : Ended p s s') : Clocked s' n := by
  have hu : (s'.pcb p).timeUsed = (s.pcb p).timeUsed := congrArg (·.1) hb.times
  have hc : (s'.pcb p).timeCreated = (s.pcb p).timeCreated := congrArg (·.2.1) hb.times
  have ht : (s'.pcb p).timeTerminated = s.systemTicks := congrArg (·.2.2) hb.times
  refine h.elsewhere hb.toElsewhere (fun _ => hb.rests) (fun hp => ?_) fun hp _ => ?_
  · rw [hb.same] at hp
    rw [hu, hc]
    exact h.used p hp
  · rw [hb.same] at hp
    rw [hu, hc, ht, h.ticks]
    exact h.used p hp

theorem Clocked.reaped {p : Slot} (h : Clocked s n) (hb : Reaped p s s') : Clocked s' n := by
  have hfreed : s'.table.allocated p ≠ true := by
    rw [hb.freed]
    exact Bool.false_ne_true
  exact h.elsewhere hb.toElsewhere (fun _ hc => h.resting p hb.zombie (hb.current p hc))
    (fun hp => absurd hp hfreed) fun hp _ => absurd hp hfreed

theorem Clocked.ticked (h : Clocked s n) (hb : Ticked s v) (hn : n + 1 < 2 ^ 32) :
    Clocked v (n + 1) := by
  have htimes : ∀ p, (v.pcb p).timeUsed = (if s.current = some p ∧ s.idle ≠ some p then
      (s.pcb p).timeUsed + 1 else (s.pcb p).timeUsed) ∧
      (v.pcb p).timeCreated = (s.pcb p).timeCreated ∧
      (v.pcb p).timeTerminated = (s.pcb p).timeTerminated := by
    intro p
    have ht := hb.times p
    split at ht
    · rename_i hp
      rw [if_pos hp]
      exact ⟨congrArg (·.1) ht, congrArg (·.2.1) ht, congrArg (·.2.2) ht⟩
    · rename_i hp
      rw [if_neg hp]
      exact ⟨congrArg (·.1) ht, congrArg (·.2.1) ht, congrArg (·.2.2) ht⟩
  refine ⟨?_, fun p hp hc => ?_, fun p hp => ?_, fun p hp hz => ?_⟩
  · rw [hb.ticks, UInt32.toNat_add, h.ticks]
    exact Nat.mod_eq_of_lt hn
  · exact h.resting p (hb.zombie p hp) (hb.resting p hp hc)
  · rw [hb.allocated] at hp
    have hused := h.used p hp
    have hle : (v.pcb p).timeUsed.toNat ≤ (s.pcb p).timeUsed.toNat + 1 := by
      rw [(htimes p).1]
      split
      · rw [UInt32.toNat_add]
        exact Nat.mod_le _ _
      · omega
    rw [(htimes p).2.1]
    omega
  · rw [hb.allocated] at hp
    -- a zombie is not current, so it is not charged
    have hz' := hb.zombie p hz
    rw [(htimes p).1, (htimes p).2.1, (htimes p).2.2, if_neg fun hc => h.resting p hz' hc.1]
    exact h.ended p hp hz'

/-- **The step**: clocks are kept, as long as the counter does not wrap. -/
theorem step_clocked (hH : H.KeepsTimes) (h : Clocked t.1 t.2.ticks) (hs : Booked H t op t')
    (hn : t'.2.ticks < 2 ^ 32) : Clocked t'.1 t'.2.ticks := by
  obtain ⟨hstep, -⟩ := hs.parts
  have hw := step_times hH hstep
  rw [hs.ticks] at hn ⊢
  cases op with
  | create name type priority flags =>
    rcases hw with he | ⟨p, hb⟩
    · rw [he]
      exact h
    · exact h.born hb
  | terminate pid exitCode =>
    rcases hw with he | ⟨p, hb⟩
    · rw [he]
      exact h
    · exact h.terminated hb
  | reap pid =>
    rcases hw with ⟨he, -⟩ | ⟨-, p, -, hb⟩
    · rw [he]
      exact h
    · exact h.reaped hb
  | tick =>
    obtain ⟨v, u, hv, hu, hk⟩ := hw
    rw [if_pos rfl] at hn ⊢
    obtain ⟨st, sc, rfl⟩ := updateSchedulerStats_eq hu
    have hc := h.ticked hv hn
    have hc' : Clocked { v with stats := st, statics := sc } (t.2.ticks + 1) :=
      ⟨hc.ticks, hc.resting, hc.used, hc.ended⟩
    exact hc'.kept hk
  | schedule => exact h.kept hw
  | yield => exact h.kept hw
  | block => exact h.kept hw
  | wakeup pid => exact h.kept hw
  | sleep ticks => exact h.kept hw
  | setPriority pid priority => exact h.kept hw

/-- **The run.** -/
theorem run_clocked (hH : H.KeepsTimes) (hrun : Accounts H statics config t)
    (hn : t.2.ticks < 2 ^ 32) : Clocked t.1 t.2.ticks := by
  refine hrun.invariant (I := fun t => t.2.ticks < 2 ^ 32 → Clocked t.1 t.2.ticks)
    (fun _ => (schedulerInit_started hH statics config).clocked) ?_ hn
  intro t op t' hi _ hs ht'
  refine step_clocked hH (hi ?_) hs ht'
  rw [hs.ticks] at ht'
  split at ht' <;> omega

/-- A reap that succeeds finds a zombie. -/
theorem reapProcess_found (hH : H.KeepsTimes) (h : reapProcess H s pid = (s', 0)) :
    ∃ p, H.processTableFind s.table pid = some p ∧ Reaped p s s' := by
  rcases reapProcess_reaped hH s pid with he | ⟨-, hr⟩
  · rw [h] at he
    exact absurd (congrArg (·.2) he) (by decide : (0 : Int32) ≠ -1)
  · rwa [h] at hr

/-- **What is added to `total_wait_time` is exact** in every run of fewer than 2^32 ticks. -/
theorem waiting_time_exact (hH : H.KeepsTimes) (hrun : Accounts H statics config t)
    (hn : t.2.ticks < 2 ^ 32) (h : reapProcess H t.1 pid = (s', 0)) :
    ∃ p, H.processTableFind t.1.table pid = some p ∧
      (t.1.pcb p).timeCreated ≤ (t.1.pcb p).timeTerminated ∧
      (t.1.pcb p).timeUsed ≤ (t.1.pcb p).lifetime ∧
      ∃ a : UInt32, s'.stats.totalWaitTime = t.1.stats.totalWaitTime + a ∧
        (a.toNat : Int) = (t.1.pcb p).timeTerminated.toNat - (t.1.pcb p).timeCreated.toNat -
          (t.1.pcb p).timeUsed.toNat := by
  obtain ⟨p, hfind, hr⟩ := reapProcess_found hH h
  have hclock := run_clocked hH hrun hn
  have hend := hclock.ended p hr.held hr.zombie
  have hle : (t.1.pcb p).timeCreated ≤ (t.1.pcb p).timeTerminated := by
    rw [UInt32.le_iff_toNat_le]
    omega
  have hlife : (t.1.pcb p).lifetime.toNat =
      (t.1.pcb p).timeTerminated.toNat - (t.1.pcb p).timeCreated.toNat :=
    UInt32.toNat_sub_of_le _ _ hle
  have hused : (t.1.pcb p).timeUsed ≤ (t.1.pcb p).lifetime := by
    rw [UInt32.le_iff_toNat_le, hlife]
    omega
  refine ⟨p, hfind, hle, hused, (t.1.pcb p).lifetime - (t.1.pcb p).timeUsed, hr.waited, ?_⟩
  rw [UInt32.toNat_sub_of_le _ _ hused, hlife]
  omega

/-- A process waits for three ticks, runs for two and ends. -/
theorem waiting_time_exact_five : ∃ (t : State × Ledger) (s' : State), t.2.ticks = 5 ∧
    reapProcess listHelpers t.1 2 = (s', 0) ∧
    ∃ p, listHelpers.processTableFind t.1.table 2 = some p ∧
      (t.1.pcb p).timeCreated ≤ (t.1.pcb p).timeTerminated ∧
      (t.1.pcb p).timeUsed ≤ (t.1.pcb p).lifetime ∧
      ∃ a : UInt32, s'.stats.totalWaitTime = t.1.stats.totalWaitTime + a ∧
        (a.toNat : Int) = (t.1.pcb p).timeTerminated.toNat - (t.1.pcb p).timeCreated.toNat -
          (t.1.pcb p).timeUsed.toNat := by
  have hx : ((exec (stepBooked listHelpers) (fun _ _ => true)
      (schedulerInit listHelpers ⟨0, 0, 0, 0⟩ (some ⟨.rr, 10, true, false, 4, 1000, 500⟩),
        ⟨0, 0, 0, 0⟩)
      [.schedule, .create [] .user 0 0, .tick, .tick, .tick, .yield, .tick, .tick,
        .terminate 2 0]).map fun t =>
          (t.2.ticks, (reapProcess listHelpers t.1 2).2)) = some (5, 0) := by decide +kernel
  obtain ⟨t, ht, hobs⟩ := Option.map_eq_some_iff.mp hx
  simp only [Prod.mk.injEq] at hobs
  obtain ⟨h5, h0⟩ := hobs
  have hrun : Accounts listHelpers ⟨0, 0, 0, 0⟩ (some ⟨.rr, 10, true, false, 4, 1000, 500⟩) t :=
    reaches_of_exec (fun _ _ _ => trivial) (fun _ _ _ hs => hs) ht
  have hreap : reapProcess listHelpers t.1 2 = ((reapProcess listHelpers t.1 2).1, 0) :=
    Prod.ext rfl h0
  exact ⟨t, _, h5, hreap, waiting_time_exact listHelpers_keepsTimes hrun (by omega) hreap⟩

/-! ## Averages -/

/-- The counters of the statistics are those of the ledger in 32 bits. -/
structure Totals (t : State × Ledger) : Prop where
  completed : t.1.stats.processesCompleted.toNat = t.2.reaped % 2 ^ 32
  runtime : t.1.stats.totalRuntime.toNat = t.2.used % 2 ^ 32

/-- The statistics of a tick leave the totals alone. -/
theorem updateSchedulerStats_totals (h : updateSchedulerStats s = some s') :
    s'.stats.processesCompleted = s.stats.processesCompleted ∧
      s'.stats.totalRuntime = s.stats.totalRuntime := by
  obtain ⟨i, -, h⟩ := Option.bind_eq_some_iff.mp h
  cases h
  obtain ⟨c, l, k, hu⟩ := updateUtilization_eq s (s.pcb i).timeUsed
  obtain ⟨n, c', l', ht⟩ := updateThroughput_eq (updateUtilization s (s.pcb i).timeUsed)
  rw [ht, hu]
  exact ⟨rfl, rfl⟩

/-- The entry of a reap that succeeds. -/
theorem book_reap {p : Slot} {L : Ledger} (hfind : H.processTableFind s.table pid = some p)
    (h : (reapProcess H s pid).2 = 0) : L.book H s (.reap pid) = { L with
      reaped := L.reaped + 1
      lifetimes := L.lifetimes + (s.pcb p).lifetime.toNat
      used := L.used + (s.pcb p).timeUsed.toNat } := by
  unfold Ledger.book
  dsimp only
  rw [hfind]
  exact if_pos h

/-- A failed reap has no entry. -/
theorem book_failed {L : Ledger} (h : (reapProcess H s pid).2 ≠ 0) :
    L.book H s (.reap pid) = L := by
  unfold Ledger.book
  dsimp only
  split
  · rfl
  · exact if_neg h

theorem Reaped.totals {p : Slot} {L L' : Ledger} (h : Totals (s, L)) (hr : Reaped p s s')
    (hn : L'.reaped = L.reaped + 1) (hu : L'.used = L.used + (s.pcb p).timeUsed.toNat) :
    Totals (s', L') := by
  have hc := congrArg (·.1) hr.figures
  have hrt := congrArg (·.2.1) hr.figures
  refine ⟨?_, ?_⟩
  · show s'.stats.processesCompleted.toNat = _
    rw [show s'.stats.processesCompleted = _ from hc, UInt32.toNat_add, h.completed, hn]
    simp
  · show s'.stats.totalRuntime.toNat = _
    rw [show s'.stats.totalRuntime = _ from hrt, UInt32.toNat_add, h.runtime, hu]
    simp

theorem Totals.same (h : Totals t)
    (hc : t'.1.stats.processesCompleted = t.1.stats.processesCompleted)
    (hr : t'.1.stats.totalRuntime = t.1.stats.totalRuntime) (hn : t'.2.reaped = t.2.reaped)
    (hu : t'.2.used = t.2.used) : Totals t' where
  completed := by
    rw [hc, hn]
    exact h.completed
  runtime := by
    rw [hr, hu]
    exact h.runtime

theorem step_totals (hH : H.KeepsTimes) (h : Totals t) (hs : Booked H t op t') : Totals t' := by
  obtain ⟨hstep, hbook⟩ := hs.parts
  have hw := step_times hH hstep
  have hsame : t'.1.stats.figures = t.1.stats.figures → t'.2.reaped = t.2.reaped →
      t'.2.used = t.2.used → Totals t' := fun hf =>
    h.same (congrArg (·.1) hf) (congrArg (·.2.1) hf)
  cases op with
  | create name type priority flags =>
    apply hsame ?_ (by rw [hbook]; rfl) (by rw [hbook]; rfl)
    rcases hw with he | ⟨p, hb⟩
    · rw [he]
    · exact hb.figures
  | terminate pid exitCode =>
    apply hsame ?_ (by rw [hbook]; rfl) (by rw [hbook]; rfl)
    rcases hw with he | ⟨p, hb⟩
    · rw [he]
    · exact hb.figures
  | reap pid =>
    rcases hw with ⟨he, hne⟩ | ⟨hz, p, hfind, hb⟩
    · rw [book_failed hne] at hbook
      exact hsame (by rw [he]) (by rw [hbook]) (by rw [hbook])
    · rw [book_reap hfind hz] at hbook
      exact hb.totals h (by rw [hbook]) (by rw [hbook])
  | tick =>
    obtain ⟨v, u, hv, hu, hk⟩ := hw
    obtain ⟨hc, hr⟩ := updateSchedulerStats_totals hu
    have hkc : t'.1.stats.processesCompleted = u.stats.processesCompleted :=
      congrArg (·.1) hk.figures
    have hkr : t'.1.stats.totalRuntime = u.stats.totalRuntime := congrArg (·.2.1) hk.figures
    have hvc : v.stats.processesCompleted = t.1.stats.processesCompleted :=
      congrArg (·.1) hv.figures
    have hvr : v.stats.totalRuntime = t.1.stats.totalRuntime := congrArg (·.2.1) hv.figures
    refine h.same (hkc.trans (hc.trans hvc)) (hkr.trans (hr.trans hvr)) ?_ ?_
    · rw [hbook]
      rfl
    · rw [hbook]
      rfl
  | schedule => exact hsame hw.figures (by rw [hbook]; rfl) (by rw [hbook]; rfl)
  | yield => exact hsame hw.figures (by rw [hbook]; rfl) (by rw [hbook]; rfl)
  | block => exact hsame hw.figures (by rw [hbook]; rfl) (by rw [hbook]; rfl)
  | wakeup pid => exact hsame hw.figures (by rw [hbook]; rfl) (by rw [hbook]; rfl)
  | sleep ticks => exact hsame hw.figures (by rw [hbook]; rfl) (by rw [hbook]; rfl)
  | setPriority pid priority => exact hsame hw.figures (by rw [hbook]; rfl) (by rw [hbook]; rfl)

theorem run_totals (hH : H.KeepsTimes) (hrun : Accounts H statics config t) : Totals t := by
  have hinit := schedulerInit_started hH statics config
  refine hrun.invariant ⟨?_, ?_⟩ fun t op t' hi _ hs => step_totals hH hi hs
  · exact congrArg (fun f => (f.1 : UInt32).toNat) hinit.figures
  · exact congrArg (fun f => (f.2.1 : UInt32).toNat) hinit.figures

/-- The time used and the sum of the lifetimes lie between the same multiples of the number of
processes: in fewer than 2^32 ticks, the processes waited in total at most for the remainder.  The
last average counts once the number of processes is a multiple of 2^32, and then the sum of the
lifetimes is less than the number of processes. -/
def Ledger.Even (L : Ledger) (average : UInt32) : Prop :=
  if L.reaped < 2 ^ 32 then
    L.lifetimes ≤ L.used % 2 ^ 32 + L.lifetimes % L.reaped ∧
      L.used % 2 ^ 32 + L.lifetimes % L.reaped < L.lifetimes + L.reaped
  else if L.reaped % 2 ^ 32 = 0 then average = 0
  else L.used % 2 ^ 32 < L.reaped % 2 ^ 32

instance (L : Ledger) (average : UInt32) : Decidable (L.Even average) := by
  delta Ledger.Even
  infer_instance

/-- Two numbers have the same quotient exactly if they lie between the same multiples. -/
theorem div_eq_div_iff_between {a b n : Nat} (hn : 0 < n) :
    a / n = b / n ↔ b ≤ a + b % n ∧ a + b % n < b + n := by
  have hb := Nat.div_add_mod b n
  rw [Nat.div_eq_iff hn, Nat.mul_comm (b / n) n]
  omega

/-- **The average is the quotient of the lifetimes exactly if** the processes waited little enough
for the quotient to be the same. -/
theorem avg_turnaround_iff (hH : H.KeepsTimes) (hrun : Accounts H statics config t)
    (h : reapProcess H t.1 pid = (s', 0))
    (hT : (t.2.book H t.1 (.reap pid)).lifetimes < 2 ^ 32) :
    let L := t.2.book H t.1 (.reap pid)
    s'.stats.avgTurnaroundTime.toNat = L.lifetimes / L.reaped ↔
      L.Even t.1.stats.avgTurnaroundTime := by
  intro L
  obtain ⟨p, hfind, hr⟩ := reapProcess_found hH h
  have hL : L = _ := book_reap hfind (congrArg (·.2) h)
  have hpos : 0 < L.reaped := by
    rw [hL]
    exact Nat.succ_pos _
  have htot : Totals (s', L) := hr.totals (L := t.2) (run_totals hH hrun) (by rw [hL]) (by rw [hL])
  have hc : s'.stats.processesCompleted.toNat = L.reaped % 2 ^ 32 := htot.completed
  have hu : s'.stats.totalRuntime.toNat = L.used % 2 ^ 32 := htot.runtime
  have hzero : ¬ L.reaped < 2 ^ 32 → L.lifetimes / L.reaped = 0 := fun hn =>
    Nat.div_eq_of_lt (Nat.lt_of_lt_of_le hT (Nat.le_of_not_lt hn))
  have hdivide : L.reaped % 2 ^ 32 ≠ 0 → s'.stats.avgTurnaroundTime.toNat =
      L.used % 2 ^ 32 / (L.reaped % 2 ^ 32) := by
    intro hne
    have hlt : 0 < s'.stats.processesCompleted := by
      rw [UInt32.lt_iff_toNat_lt, hc]
      exact Nat.pos_of_ne_zero hne
    rw [hr.average, if_pos hlt, UInt32.toNat_div, hc, hu]
  unfold Ledger.Even
  by_cases hn : L.reaped < 2 ^ 32
  · have hmod : L.reaped % 2 ^ 32 = L.reaped := Nat.mod_eq_of_lt hn
    rw [if_pos hn, hdivide (by omega), hmod]
    exact div_eq_div_iff_between hpos
  · rw [if_neg hn, hzero hn]
    by_cases hm : L.reaped % 2 ^ 32 = 0
    · have hnot : ¬ 0 < s'.stats.processesCompleted := by
        rw [UInt32.lt_iff_toNat_lt, hc, hm]
        exact Nat.lt_irrefl 0
      rw [if_pos hm, hr.average, if_neg hnot]
      exact UInt32.toNat_inj (b := 0)
    · rw [if_neg hm, hdivide hm, Nat.div_eq_zero_iff]
      omega

/-- A process that ran for all of its five ticks, and one that ran for all but one of its seven. -/
theorem avg_turnaround_iff_runs :
    (∃ (t : State × Ledger) (s' : State),
      Accounts listHelpers ⟨0, 0, 0, 0⟩ (some ⟨.rr, 10, true, false, 4, 1000, 500⟩) t ∧
      t.2.book listHelpers t.1 (.reap 2) = ⟨5, 1, 5, 5⟩ ∧
      reapProcess listHelpers t.1 2 = (s', 0) ∧ s'.stats.avgTurnaroundTime.toNat = 5) ∧
    ∃ (t : State × Ledger) (s' : State),
      Accounts listHelpers ⟨0, 0, 0, 0⟩ (some ⟨.rr, 10, true, false, 4, 1000, 500⟩) t ∧
      t.2.book listHelpers t.1 (.reap 2) = ⟨7, 1, 7, 6⟩ ∧
      reapProcess listHelpers t.1 2 = (s', 0) ∧ s'.stats.avgTurnaroundTime.toNat ≠ 7 := by
  have hrun : ∀ (ops : List Op) (L : Ledger), ((exec (stepBooked listHelpers) (fun _ _ => true)
      (schedulerInit listHelpers ⟨0, 0, 0, 0⟩ (some ⟨.rr, 10, true, false, 4, 1000, 500⟩),
        ⟨0, 0, 0, 0⟩) ops).map fun t => (t.2.book listHelpers t.1 (.reap 2),
          (reapProcess listHelpers t.1 2).2)) = some (L, 0) → ∃ t : State × Ledger,
      Accounts listHelpers ⟨0, 0, 0, 0⟩ (some ⟨.rr, 10, true, false, 4, 1000, 500⟩) t ∧
      t.2.book listHelpers t.1 (.reap 2) = L ∧
      reapProcess listHelpers t.1 2 = ((reapProcess listHelpers t.1 2).1, 0) := by
    intro ops L hx
    obtain ⟨t, ht, hobs⟩ := Option.map_eq_some_iff.mp hx
    simp only [Prod.mk.injEq] at hobs
    exact ⟨t, reaches_of_exec (fun _ _ _ => trivial) (fun _ _ _ hs => hs) ht, hobs.1,
      Prod.ext rfl hobs.2⟩
  obtain ⟨t, ht, hL, hreap⟩ := hrun [.schedule, .create [] .user 0 0, .yield, .tick, .tick, .tick,
    .tick, .tick, .terminate 2 0] ⟨5, 1, 5, 5⟩ (by decide +kernel)
  obtain ⟨t', ht', hL', hreap'⟩ := hrun [.schedule, .create [] .user 0 0, .tick, .yield, .tick,
    .tick, .tick, .tick, .tick, .tick, .terminate 2 0] ⟨7, 1, 7, 6⟩ (by decide +kernel)
  have hspec := avg_turnaround_iff listHelpers_keepsTimes ht hreap (by rw [hL]; decide)
  have hspec' := avg_turnaround_iff listHelpers_keepsTimes ht' hreap' (by rw [hL']; decide)
  rw [hL] at hspec
  rw [hL'] at hspec'
  exact ⟨⟨t, _, ht, hL, hreap, hspec.mpr (by simp [Ledger.Even])⟩,
    t', _, ht', hL', hreap', fun h => absurd (hspec'.mp h) (by simp [Ledger.Even])⟩

/-- A process is created, waits for five ticks and is terminated: the average turnaround is 0. -/
theorem turnaround_without_waiting : ¬ ∀ (H : Helpers) (statics : Statics)
    (config : Option Config) (t : State × Ledger) (pid : UInt32) (s' : State), H.KeepsTimes →
    Accounts H statics config t → reapProcess H t.1 pid = (s', 0) →
    (t.2.book H t.1 (.reap pid)).lifetimes < 2 ^ 32 →
    s'.stats.avgTurnaroundTime.toNat = (t.2.book H t.1 (.reap pid)).lifetimes /
      (t.2.book H t.1 (.reap pid)).reaped := by
  intro hall
  have hx : ((exec (stepBooked listHelpers) (fun _ _ => true)
      (schedulerInit listHelpers ⟨0, 0, 0, 0⟩ (some ⟨.rr, 10, true, false, 4, 1000, 500⟩),
        ⟨0, 0, 0, 0⟩)
      [.schedule, .create [] .user 0 0, .tick, .tick, .tick, .tick, .tick, .terminate 2 0]).map
        fun t => (t.2.book listHelpers t.1 (.reap 2), (reapProcess listHelpers t.1 2).2,
          (reapProcess listHelpers t.1 2).1.stats.avgTurnaroundTime)) =
            some (⟨5, 1, 5, 0⟩, 0, 0) := by decide +kernel
  obtain ⟨t, ht, hobs⟩ := Option.map_eq_some_iff.mp hx
  simp only [Prod.mk.injEq] at hobs
  obtain ⟨hL, h0, havg⟩ := hobs
  have hrun : Accounts listHelpers ⟨0, 0, 0, 0⟩ (some ⟨.rr, 10, true, false, 4, 1000, 500⟩) t :=
    reaches_of_exec (fun _ _ _ => trivial) (fun _ _ _ hs => hs) ht
  have heq := hall listHelpers _ _ t 2 (reapProcess listHelpers t.1 2).1 listHelpers_keepsTimes
    hrun (Prod.ext rfl h0) (by rw [hL]; decide)
  rw [havg, hL] at heq
  exact absurd heq (by decide)

end OSCompas.Kernel
