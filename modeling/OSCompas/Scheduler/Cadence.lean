import OSCompas.Scheduler.Slices

/-!
# When priorities are boosted

`scheduler_tick` compares the 32-bit difference of `system_ticks` and `last_boost_time` with
`boost_interval`, on ticks with a current process only.

* `Beats` — a state beside the ticks since `scheduler_init` and those at which priorities were
  boosted, both unbounded;
* `Cadenced` — the property;
* `CadenceOk` — the condition on a call and the state before it.

Principal results: `tick_clock`, `elapsed_toNat`, `step_onBeat` and `boosts_cadenced`.
-/

set_option autoImplicit false

namespace OSCompas.Scheduler

open Function Runs

variable {s s' : State} {p : Slot} {o : Option Slot} {config : Config} {op : Op} {m n : Nat}

/-! ## Beats -/

/-- A state, beside what its 32-bit clocks stand for. -/
structure Beats where
  state : State
  /-- The calls of `scheduler_tick`. -/
  clock : Nat
  /-- Those that boosted the priorities, the last one first. -/
  boosts : List Nat
  /-- The last tick had a current process. -/
  busy : Bool

def Beats.init (config : Config) : Beats := ⟨schedulerInit config, 0, [], false⟩

/-- The last boost, or `scheduler_init`. -/
def Beats.last (b : Beats) : Nat := b.boosts.headD 0

/-- The call `op` led to the state `s`.  A tick with a current process boosts the priorities where
`boostDue` says so (`tick_cases`). -/
def Beats.record (b : Beats) (op : Op) (s : State) : Beats :=
  match op with
  | .tick =>
    if b.state.current = none then ⟨s, b.clock + 1, b.boosts, false⟩
    else if b.state.boostDue then ⟨s, b.clock + 1, (b.clock + 1) :: b.boosts, true⟩
    else ⟨s, b.clock + 1, b.boosts, true⟩
  | _ => { b with state := s }

def stepBeats (b : Beats) (op : Op) : Option Beats := (step b.state op).map (b.record op)

def BeatsStep (b : Beats) (op : Op) (b' : Beats) : Prop := stepBeats b op = some b'

/-- The property, for the interval `n`. -/
structure Cadenced (n : Nat) (b : Beats) : Prop where
  spaced : b.boosts.IsChain fun later earlier => earlier + n ≤ later
  never : n = 0 → b.boosts = []
  recent : b.busy = true → 0 < n → b.clock - b.last < n

/-- The condition: at a tick with a current process the interval is positive, and if it is over by
then, it is also over modulo `2 ^ 32`. -/
def CadenceOk (b : Beats) (op : Op) : Prop :=
  op = .tick → b.state.current ≠ none → b.state.config.boostInterval ≠ 0 ∧
    (b.state.config.boostInterval.toNat ≤ b.clock + 1 - b.last →
      b.state.config.boostInterval.toNat ≤ (b.clock + 1 - b.last) % 2 ^ 32)

instance (b : Beats) (op : Op) : Decidable (CadenceOk b op) := by
  delta CadenceOk
  infer_instance

/-! ## The clocks -/

/-- The fields the boost is decided by. -/
structure SameClock (s s' : State) : Prop where
  config : s'.config = s.config
  interval : s'.boostInterval = s.boostInterval
  ticks : s'.systemTicks = s.systemTicks
  boosted : s'.lastBoostTime = s.lastBoostTime

theorem SameClock.refl (s : State) : SameClock s s := ⟨rfl, rfl, rfl, rfl⟩

theorem SameClock.trans {s'' : State} (h : SameClock s s') (h' : SameClock s' s'') :
    SameClock s s'' :=
  ⟨h'.config.trans h.config, h'.interval.trans h.interval, h'.ticks.trans h.ticks,
    h'.boosted.trans h.boosted⟩

theorem SameProcs.clock (h : SameProcs s s') : SameClock s s' :=
  ⟨h.config, h.boostInterval, h.systemTicks, h.lastBoostTime⟩

theorem boostOne_clock {i : Fin MAX_PRIORITY_LEVELS} (h : boostOne s i = some s') :
    SameClock s s' := by
  obtain ⟨p, -, -, -, -, rfl⟩ := boostOne_cases h
  exact ⟨rfl, rfl, rfl, rfl⟩

theorem boostPriority_clock (h : boostPriority s = some s') : SameClock s s' :=
  boostPriority_rel .refl (fun _ _ _ => .trans) (fun _ _ _ => boostOne_clock) h

/-- **What a tick does to the clocks.** -/
theorem tick_clock (h : tick s = some s') :
    s'.config = s.config ∧ s'.boostInterval = s.boostInterval ∧
      s'.systemTicks = s.systemTicks + 1 ∧ s'.lastBoostTime =
        if s.current ≠ none ∧ s.boostDue then s.systemTicks + 1 else s.lastBoostTime := by
  rcases tick_cases h with ⟨hc, rfl⟩ | ⟨c, s₁, hc, hsl, hb⟩
  · simp [hc]
  · have hch : SameClock { s with systemTicks := s.systemTicks + 1 } (s.charged c) :=
      (charged_effect s c).toSameProcs.clock
    have h1 : SameClock { s with systemTicks := s.systemTicks + 1 } s₁ := by
      rcases hsl with ⟨-, hy⟩ | ⟨-, rfl⟩
      · have hcur : (s.charged c).current = some c := (charged_effect s c).current.trans hc
        exact hch.trans (yield_effect hcur hy).1.clock
      · exact hch
    rcases hb with ⟨hdue, hst, -⟩ | ⟨hdue, s₂, s₃, ⟨hst, -⟩, hbo, rfl⟩
    · have h2 := h1.trans hst.toSameProcs.clock
      refine ⟨h2.config, h2.interval, h2.ticks, ?_⟩
      rw [if_neg fun hd => hdue hd.2]
      exact h2.boosted
    · have h2 := (h1.trans hst.toSameProcs.clock).trans (boostPriority_clock hbo)
      refine ⟨h2.config, h2.interval, h2.ticks, ?_⟩
      rw [if_pos ⟨by simp [hc], hdue⟩]
      exact h2.ticks

/-- The calls that are no ticks leave them alone. -/
theorem step_clock (h : Step s op s') (hop : op ≠ .tick) : SameClock s s' := by
  cases op with
  | create name priority =>
    obtain ⟨⟨s₁, o⟩, hc, rfl⟩ := Option.map_eq_some_iff.mp h
    rcases create_slot hc with ⟨-, rfl⟩ | ⟨p, q, -, -, ha⟩
    · exact .refl _
    · obtain ⟨l, -, rfl⟩ := addToReadyQueue_effect ha
      exact ⟨rfl, rfl, rfl, rfl⟩
  | terminate pid =>
    rcases terminate_cases h with ⟨-, rfl⟩ | ⟨i, -, ⟨-, -, -, hsch⟩ | ⟨-, rfl⟩⟩
    · exact .refl _
    · exact (vacated_effect s i).1.clock.trans (schedule_effect hsch).1.clock
    · have hst := (retire_effect s i).1
      exact ((setState_procs s i .terminated).trans hst.toSameProcs).clock
  | yield => exact (yield_procs h).clock
  | tick => exact absurd rfl hop
  | schedule => exact (schedule_effect h).1.clock

/-! ## Wrapping -/

/-- The difference of two 32-bit clocks is the time between them modulo `2 ^ 32`. -/
theorem elapsed_toNat {now old : UInt32} (hnow : now.toNat = n % 2 ^ 32)
    (hold : old.toNat = m % 2 ^ 32) (hle : m ≤ n) : (now - old).toNat = (n - m) % 2 ^ 32 := by
  rw [UInt32.toNat_sub, hnow, hold]
  omega

theorem nextTick_toNat {now : UInt32} (hnow : now.toNat = n % 2 ^ 32) :
    (now + 1).toNat = (n + 1) % 2 ^ 32 := by
  rw [UInt32.toNat_add, hnow]
  simp

/-! ## The invariant -/

/-- The 32-bit clocks show the unbounded ones, and the property holds. -/
structure OnBeat (config : Config) (b : Beats) : Prop where
  policy : b.state.config = config
  interval : b.state.boostInterval = config.boostInterval
  ticks : b.state.systemTicks.toNat = b.clock % 2 ^ 32
  boosted : b.state.lastBoostTime.toNat = b.last % 2 ^ 32
  past : b.last ≤ b.clock
  cadenced : Cadenced config.boostInterval.toNat b

theorem OnBeat.init (ht : config.type = .mlfq) : OnBeat config (.init config) where
  policy := rfl
  interval := by simp [Beats.init, schedulerInit, ht]
  ticks := rfl
  boosted := rfl
  past := Nat.le_refl 0
  cadenced := ⟨.nil, fun _ => rfl, nofun⟩

/-- The code decides by the time since the last boost, modulo `2 ^ 32`. -/
theorem OnBeat.due_iff {b : Beats} (ht : config.type = .mlfq) (h : OnBeat config b) :
    b.state.boostDue ↔ config.boostInterval.toNat ≤ (b.clock + 1 - b.last) % 2 ^ 32 := by
  have hel := elapsed_toNat (nextTick_toNat h.ticks) h.boosted (h.past.trans (Nat.le_succ _))
  unfold State.boostDue
  rw [h.policy, h.interval, UInt32.le_iff_toNat_le, hel]
  exact and_iff_right ht

/-- A boost is at least the interval after the one before it, also without the condition. -/
theorem OnBeat.due_le {b : Beats} (ht : config.type = .mlfq) (h : OnBeat config b)
    (hdue : b.state.boostDue) : config.boostInterval.toNat ≤ b.clock + 1 - b.last :=
  ((h.due_iff ht).mp hdue).trans (Nat.mod_le _ _)

/-- **The tick.** -/
theorem OnBeat.tick {b : Beats} (ht : config.type = .mlfq) (h : OnBeat config b)
    (hok : CadenceOk b .tick) (hs : tick b.state = some s') :
    OnBeat config (b.record .tick s') := by
  obtain ⟨hcfg, hint, hticks, hboosted⟩ := tick_clock hs
  have hnow : s'.systemTicks.toNat = (b.clock + 1) % 2 ^ 32 := by
    rw [hticks]
    exact nextTick_toNat h.ticks
  have hpast := h.past
  unfold Beats.record
  dsimp only
  by_cases hc : b.state.current = none
  · rw [if_neg fun hd => hd.1 hc] at hboosted
    rw [if_pos hc]
    exact ⟨hcfg.trans h.policy, hint.trans h.interval, hnow, hboosted ▸ h.boosted,
      hpast.trans (Nat.le_succ _), h.cadenced.spaced, h.cadenced.never, nofun⟩
  · obtain ⟨hpos, hmod⟩ := hok rfl hc
    rw [h.policy] at hpos hmod
    have hpos' : config.boostInterval.toNat ≠ 0 := fun h0 => hpos (UInt32.toNat_inj.mp h0)
    rw [if_neg hc]
    by_cases hdue : b.state.boostDue
    · -- the boost: the chain grows at its head
      rw [if_pos ⟨hc, hdue⟩] at hboosted
      rw [if_pos hdue]
      have hle := h.due_le ht hdue
      refine ⟨hcfg.trans h.policy, hint.trans h.interval, hnow, ?_, Nat.le_refl _, ?_,
        fun h0 => absurd h0 hpos', fun _ hn => ?_⟩
      · rw [hboosted]
        exact nextTick_toNat h.ticks
      · cases hb : b.boosts with
        | nil => exact .singleton _
        | cons later rest =>
          have hspaced := h.cadenced.spaced
          have hlast : b.last = later := by
            unfold Beats.last
            rw [hb]
            rfl
          rw [hb] at hspaced
          rw [hlast] at hle hpast
          exact .cons_cons (by omega) hspaced
      · show b.clock + 1 - (b.clock + 1) < _
        omega
    · rw [if_neg fun hd => hdue hd.2] at hboosted
      rw [if_neg hdue]
      refine ⟨hcfg.trans h.policy, hint.trans h.interval, hnow, hboosted ▸ h.boosted,
        hpast.trans (Nat.le_succ _), h.cadenced.spaced, h.cadenced.never, fun _ _ => ?_⟩
      by_contra hover
      exact hdue ((h.due_iff ht).mpr (hmod (Nat.not_lt.mp hover)))

/-- **The step.** -/
theorem step_onBeat {b b' : Beats} (ht : config.type = .mlfq) (h : OnBeat config b)
    (hok : CadenceOk b op) (hst : BeatsStep b op b') : OnBeat config b' := by
  obtain ⟨s', hs, rfl⟩ := Option.map_eq_some_iff.mp hst
  by_cases hop : op = .tick
  · subst hop
    exact h.tick ht hok hs
  · have hrec : b.record op s' = { b with state := s' } := by
      cases op <;> first | rfl | exact absurd rfl hop
    have hcl := step_clock hs hop
    rw [hrec]
    exact ⟨hcl.config.trans h.policy, hcl.interval.trans h.interval, hcl.ticks ▸ h.ticks,
      hcl.boosted ▸ h.boosted, h.past, h.cadenced.spaced, h.cadenced.never, h.cadenced.recent⟩

/-! ## The property -/

/-- **The boosts keep to their interval** in every run that keeps to the condition. -/
theorem boosts_cadenced {b : Beats} (ht : config.type = .mlfq)
    (hrun : Reaches BeatsStep CadenceOk (.init config) b) :
    Cadenced config.boostInterval.toNat b :=
  (hrun.invariant (.init ht) fun _ _ _ h hok hs => step_onBeat ht h hok hs).cadenced

/-- Two boosts, 3 ticks apart. -/
theorem boosts_cadenced_three : ∃ b : Beats, b.boosts = [6, 3] ∧ b.clock = 8 ∧ Cadenced 3 b := by
  have hx : (exec stepBeats (fun b op => decide (CadenceOk b op)) (.init ⟨.mlfq, 10, 1, 4, 3⟩)
      ([.create [] 1, .schedule] ++ List.replicate 8 .tick)).map
      (fun b => (b.boosts, b.clock)) = some ([6, 3], 8) := by decide +kernel
  obtain ⟨b, hb, hobs⟩ := Option.map_eq_some_iff.mp hx
  simp only [Prod.mk.injEq] at hobs
  have hrun : Reaches BeatsStep CadenceOk (.init ⟨.mlfq, 10, 1, 4, 3⟩) b :=
    reaches_of_exec (fun _ _ h => of_decide_eq_true h) (fun _ _ _ h => h) hb
  exact ⟨b, hobs.1, hobs.2, boosts_cadenced rfl hrun⟩

/-- With the interval 0 a boost happens at every tick with a current process. -/
theorem boosts_not_cadenced : ¬ ∀ config (b : Beats), config.type = .mlfq →
    Reaches BeatsStep anyAction (.init config) b → Cadenced config.boostInterval.toNat b := by
  intro hall
  have hx : (exec stepBeats (fun _ _ => true) (.init ⟨.mlfq, 10, 1, 4, 0⟩)
      [.create [] 0, .schedule, .tick, .tick]).map (·.boosts) = some [2, 1] := by decide +kernel
  obtain ⟨b, hb, hobs⟩ := Option.map_eq_some_iff.mp hx
  have hrun : Reaches BeatsStep anyAction (.init ⟨.mlfq, 10, 1, 4, 0⟩) b :=
    reaches_of_exec (fun _ _ _ => trivial) (fun _ _ _ h => h) hb
  have hnone := (hall _ b rfl hrun).never rfl
  rw [hobs] at hnone
  cases hnone

end OSCompas.Scheduler
