import OSCompas.Kernel.Times

/-!
# The CPU utilisation

`update_scheduler_stats` takes the share of the idle process from its `time_used`, and
`update_process_times` never charges the idle process.

* `State.busyShare` — the utilisation of a tick by the process it finds;
* `Unidle` — the idle process has used no time, whatever the ticks.

Principal results: `tick_unidle` and `cpu_utilization_iff`.
-/

set_option autoImplicit false

namespace OSCompas.Kernel

open Runs

/-- 100 if another process than the idle one is current, and 0 otherwise. -/
def State.busyShare (s : State) : UInt32 :=
  match s.current with
  | none => 0
  | some c => if s.idle = some c then 0 else 100

/-- No time of the idle process was ever counted, and after a tick the utilisation is 100. -/
structure Unidle (s : State) : Prop where
  used : ∀ i, s.idle = some i → (s.pcb i).timeUsed = 0
  last : s.statics.lastIdleTime = 0
  figure : s.stats.cpuUtilization = 100 ∨ s.systemTicks = 0 ∧ s.statics.lastTotalTime = 0

variable {H : Helpers} {s s' u v : State} {op : Op} {p : Slot} {config : Option Config}

theorem Started.unidle (h : Started ⟨0, 0, 0, 0⟩ s) : Unidle s where
  used := h.idle
  last := by rw [h.statics]
  figure := .inr ⟨h.ticks, by rw [h.statics]⟩

theorem Unidle.kept (h : Unidle s) (hk : Kept s s') : Unidle s' where
  used i hi := by
    have ht : (s'.pcb i).timeUsed = (s.pcb i).timeUsed := congrArg (·.1) (hk.times i)
    rw [hk.idle] at hi
    rw [ht]
    exact h.used i hi
  last := by
    rw [hk.statics]
    exact h.last
  figure := by
    have hf : s'.stats.cpuUtilization = s.stats.cpuUtilization := congrArg (·.2.2) hk.figures
    rw [hf, hk.ticks, hk.statics]
    exact h.figure

/-- One PCB is written, and not with a time unless it is 0. -/
theorem Unidle.elsewhere (h : Unidle s) (he : Elsewhere p s s')
    (hu : (s'.pcb p).timeUsed = (s.pcb p).timeUsed ∨ (s'.pcb p).timeUsed = 0)
    (hf : s'.stats.cpuUtilization = s.stats.cpuUtilization) : Unidle s' where
  used i hi := by
    rw [he.idle] at hi
    by_cases hip : i = p
    · subst hip
      rcases hu with hu | hu
      · rw [hu]
        exact h.used i hi
      · exact hu
    · rw [he.pcb i hip]
      exact h.used i hi
  last := by
    rw [he.statics]
    exact h.last
  figure := by
    rw [hf, he.ticks, he.statics]
    exact h.figure

/-- The statistics of a tick, when no time of the idle process is counted. -/
theorem updateUtilization_full (hu : ∀ i, v.idle = some i → (v.pcb i).timeUsed = 0)
    (hlast : v.statics.lastIdleTime = 0)
    (hfigure : v.stats.cpuUtilization = 100 ∨ v.statics.lastTotalTime < v.systemTicks)
    (h : updateSchedulerStats v = some u) :
    Unidle u ∧ u.stats.cpuUtilization = 100 := by
  obtain ⟨i, hi, h⟩ := Option.bind_eq_some_iff.mp h
  cases h
  obtain ⟨n, c, l, ht⟩ := updateThroughput_eq (updateUtilization v (v.pcb i).timeUsed)
  rw [ht, hu i hi]
  have hutil : (updateUtilization v 0).stats.cpuUtilization = 100 ∧
      (updateUtilization v 0).statics.lastIdleTime = 0 := by
    unfold updateUtilization
    split
    · rename_i hlt
      dsimp only
      have hpos : 0 < v.systemTicks - v.statics.lastTotalTime := by
        rw [UInt32.lt_iff_toNat_lt] at hlt ⊢
        rw [UInt32.toNat_sub_of_le _ _ (UInt32.le_iff_toNat_le.mpr (Nat.le_of_lt hlt))]
        simp only [UInt32.toNat_zero]
        omega
      rw [if_pos hpos, hlast]
      exact ⟨by simp, rfl⟩
    · rename_i hlt
      exact ⟨hfigure.resolve_right hlt, hlast⟩
  obtain ⟨c', l', k', he⟩ := updateUtilization_eq v 0
  refine ⟨⟨?_, hutil.2, .inl hutil.1⟩, hutil.1⟩
  rw [he]
  exact hu

/-- **After a tick the utilisation is 100.** -/
theorem tick_unidle (hH : H.KeepsTimes) (h : Unidle s) (ht : Step H s .tick s') :
    Unidle s' ∧ s'.stats.cpuUtilization = 100 := by
  obtain ⟨v, u, hv, hu, hk⟩ := step_times hH ht
  have hused : ∀ i, v.idle = some i → (v.pcb i).timeUsed = 0 := by
    intro i hi
    rw [hv.idle] at hi
    have htimes := hv.times i
    rw [if_neg fun hc => hc.2 hi] at htimes
    exact (congrArg (·.1) htimes).trans (h.used i hi)
  have hfigure : v.stats.cpuUtilization = 100 ∨ v.statics.lastTotalTime < v.systemTicks := by
    rw [hv.statics, hv.ticks]
    rcases h.figure with hf | ⟨h0, hl⟩
    · exact .inl ((congrArg (·.2.2) hv.figures).trans hf)
    · rw [h0, hl]
      exact .inr (by decide)
  have hlast := h.last
  rw [← hv.statics] at hlast
  obtain ⟨hidle, hfull⟩ := updateUtilization_full hused hlast hfigure hu
  exact ⟨hidle.kept hk, (congrArg (·.2.2) hk.figures).trans hfull⟩

theorem step_unidle (hH : H.KeepsTimes) (h : Unidle s) (hs : Step H s op s') : Unidle s' := by
  have hw := step_times hH hs
  cases op with
  | create name type priority flags =>
    rcases hw with he | ⟨p, hb⟩
    · rw [he]
      exact h
    · exact h.elsewhere hb.toElsewhere (.inr hb.used) (congrArg (·.2.2) hb.figures)
  | terminate pid exitCode =>
    rcases hw with he | ⟨p, hb⟩
    · rw [he]
      exact h
    · exact h.elsewhere hb.toElsewhere (.inl (congrArg (·.1) hb.times))
        (congrArg (·.2.2) hb.figures)
  | reap pid =>
    rcases hw with ⟨he, -⟩ | ⟨-, p, -, hb⟩
    · rw [he]
      exact h
    · exact h.elsewhere hb.toElsewhere hb.used (congrArg (·.2.2) hb.figures)
  | tick => exact (tick_unidle hH h hs).1
  | schedule => exact h.kept hw
  | yield => exact h.kept hw
  | block => exact h.kept hw
  | wakeup pid => exact h.kept hw
  | sleep ticks => exact h.kept hw
  | setPriority pid priority => exact h.kept hw

/-- **After a tick the utilisation is the busy share exactly if** the tick finds another process
than the idle one. -/
theorem cpu_utilization_iff (hH : H.KeepsTimes)
    (hrun : Reaches (Step H) anyAction (schedulerInit H ⟨0, 0, 0, 0⟩ config) s)
    (h : Step H s .tick s') : s'.stats.cpuUtilization = s.busyShare ↔
      ∃ c, s.current = some c ∧ s.idle ≠ some c := by
  have hidle : Unidle s := hrun.invariant (schedulerInit_started hH _ config).unidle
    fun s op s' hi _ hs => step_unidle hH hi hs
  rw [(tick_unidle hH hidle h).2]
  unfold State.busyShare
  cases hc : s.current with
  | none => simp
  | some c =>
    by_cases hci : s.idle = some c
    · simp [hci]
    · simp [hci]

theorem cpu_utilization_iff_busy : ∃ s s', s.current = some 1 ∧
    Step listHelpers s .tick s' ∧ (s'.stats.cpuUtilization = s.busyShare ↔
      ∃ c, s.current = some c ∧ s.idle ≠ some c) := by
  have hx : ((exec (step listHelpers) (fun _ _ => true)
      (schedulerInit listHelpers ⟨0, 0, 0, 0⟩ none) [.create [] .user 0 0, .schedule]).bind fun s =>
        (step listHelpers s .tick).map fun _ => s.current) = some (some 1) := by decide +kernel
  obtain ⟨s, hs, hx⟩ := Option.bind_eq_some_iff.mp hx
  obtain ⟨s', htick, hc⟩ := Option.map_eq_some_iff.mp hx
  exact ⟨s, s', hc, htick, cpu_utilization_iff listHelpers_keepsTimes (anyRun_of_exec hs) htick⟩

/-- The first tick after a fresh boot finds the idle process, and the utilisation is 100. -/
theorem idle_counts_as_busy : ¬ ∀ (H : Helpers) (config : Option Config) (s s' : State),
    H.KeepsTimes → Reaches (Step H) anyAction (schedulerInit H ⟨0, 0, 0, 0⟩ config) s →
    Step H s .tick s' → s'.stats.cpuUtilization = s.busyShare := by
  intro hall
  have hx : ((step listHelpers (schedulerInit listHelpers ⟨0, 0, 0, 0⟩ none) .tick).map fun s' =>
      (s'.stats.cpuUtilization, (schedulerInit listHelpers ⟨0, 0, 0, 0⟩ none).busyShare)) =
        some (100, 0) := by decide +kernel
  obtain ⟨s', htick, hobs⟩ := Option.map_eq_some_iff.mp hx
  simp only [Prod.mk.injEq] at hobs
  have heq := hall listHelpers none _ s' listHelpers_keepsTimes .refl htick
  rw [hobs.1, hobs.2] at heq
  exact absurd heq (by decide)

end OSCompas.Kernel
