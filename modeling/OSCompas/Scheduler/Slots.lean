import OSCompas.Scheduler.Effects

/-!
# Slots and pids

`scheduler_create_process` gives a slot whose process is terminated, or that never had one, the next
pid, and nothing else writes a pid.

* `Tally` — a state beside the number of processes created on the way to it;
* `Numbered` — the pids in the table are below the next one, and no two are the same;
* `State.InUse`, `State.Full` — a slot with a process that is not terminated, and a table of
  them.

Principal results: `step_pids`, `Numbered.create` and `slots_apart`.
-/

set_option autoImplicit false

namespace OSCompas.Scheduler

open Function Runs

variable {s s' : State} {p q : Slot} {o : Option Slot} {op : Op} {config : Config}
  {name : List UInt8} {priority : UInt8}

/-! ## What is counted -/

/-- A slot with a process that is not terminated. -/
def State.InUse (s : State) (p : Slot) : Prop :=
  (s.pcb p).pid ≠ 0 ∧ (s.pcb p).state ≠ .terminated

/-- Every slot is in use. -/
def State.Full (s : State) : Prop := ∀ p, s.InUse p

/-- One for a creation that succeeds. -/
def creations (s : State) : Op → Nat
  | .create name priority =>
    match createProcess s name priority with
    | some (_, some _) => 1
    | _ => 0
  | _ => 0

/-- A state, beside the number of successful creations. -/
structure Tally where
  state : State
  created : Nat

def Tally.init (config : Config) : Tally := ⟨schedulerInit config, 0⟩

def stepTally (t : Tally) (op : Op) : Option Tally :=
  (step t.state op).map fun s => ⟨s, t.created + creations t.state op⟩

def TallyStep (t : Tally) (op : Op) (t' : Tally) : Prop := stepTally t op = some t'

/-! ## Creation -/

theorem findFreePcb_eq_none_iff : findFreePcb s = none ↔ s.Full := by
  unfold findFreePcb State.Full State.InUse
  rw [List.find?_eq_none]
  simp [and_comm]

theorem findFreePcb_free (h : findFreePcb s = some p) : ¬ s.InUse p := by
  have hfree : (s.pcb p).state = .terminated ∨ (s.pcb p).pid = 0 := by
    simpa using List.find?_some h
  exact fun hocc => hfree.elim hocc.2 hocc.1

/-- **The parts of a creation**: no slot, or one that is not in use and gets the next pid. -/
theorem create_outcome (h : createProcess s name priority = some (s', o)) :
    (s.Full ∧ o = none ∧ s' = s) ∨ ∃ p q, ¬ s.InUse p ∧ o = some p ∧ q.pid = s.nextPid ∧
      s'.pcb = update s.pcb p q ∧ s'.nextPid = s.nextPid + 1 := by
  unfold createProcess at h
  split at h
  · rename_i hf
    cases h
    exact .inl ⟨findFreePcb_eq_none_iff.mp hf, rfl, rfl⟩
  · rename_i p hf
    obtain ⟨s₁, ha, h⟩ := Option.bind_eq_some_iff.mp h
    obtain ⟨l, -, rfl⟩ := addToReadyQueue_effect ha
    cases h
    exact .inr ⟨p, _, findFreePcb_free hf, rfl, rfl, rfl, rfl⟩

/-! ## The other calls -/

/-- Every slot keeps its pid, and the next one is the same. -/
structure SamePids (s s' : State) : Prop where
  pid : ∀ p, (s'.pcb p).pid = (s.pcb p).pid
  nextPid : s'.nextPid = s.nextPid

theorem SamePids.refl (s : State) : SamePids s s := ⟨fun _ => rfl, rfl⟩

theorem SamePids.trans {s'' : State} (h : SamePids s s') (h' : SamePids s' s'') : SamePids s s'' :=
  ⟨fun p => (h'.pid p).trans (h.pid p), h'.nextPid.trans h.nextPid⟩

theorem SameProcs.samePids (h : SameProcs s s') : SamePids s s' := ⟨h.pid, h.nextPid⟩

theorem boostOne_pids {j : Fin MAX_PRIORITY_LEVELS} (h : boostOne s j = some s') :
    SamePids s s' := by
  refine ⟨(boostOne_effect h).pid, ?_⟩
  obtain ⟨p, -, -, -, -, rfl⟩ := boostOne_cases h
  rfl

theorem Boosting.samePids {due : Prop} (h : Boosting due s s') : SamePids s s' := by
  rcases h with ⟨-, hst, -⟩ | ⟨-, s₂, s₃, ⟨hst, -⟩, hb, rfl⟩
  · exact hst.toSameProcs.samePids
  · have h3 : SamePids s₂ s₃ := boostPriority_rel .refl (fun _ _ _ => .trans)
      (fun _ _ _ => boostOne_pids) hb
    exact hst.toSameProcs.samePids.trans ⟨h3.pid, h3.nextPid⟩

theorem tick_pids (h : tick s = some s') : SamePids s s' := by
  rcases tick_cases h with ⟨-, rfl⟩ | ⟨c, s₁, -, hsl, hb⟩
  · exact ⟨fun _ => rfl, rfl⟩
  · have hch : SamePids s (s.charged c) := by
      have hst := (charged_effect s c).toSameProcs
      exact ⟨hst.pid, hst.nextPid⟩
    rcases hsl with ⟨-, hy⟩ | ⟨-, rfl⟩
    · exact hch.trans ((yield_procs hy).samePids.trans hb.samePids)
    · exact hch.trans hb.samePids

/-- **No other call writes a pid.** -/
theorem step_pids (hs : step s op = some s') (hop : ∀ name priority, op ≠ .create name priority) :
    SamePids s s' := by
  cases op with
  | create name priority => exact absurd rfl (hop name priority)
  | terminate pid =>
    rcases terminate_cases hs with ⟨-, rfl⟩ | ⟨i, -, ⟨c, -, -, hs⟩ | ⟨-, rfl⟩⟩
    · exact .refl _
    · exact (vacated_effect s i).1.samePids.trans (schedule_effect hs).1.samePids
    · have hp := (vacated_effect s i).1
      exact ⟨hp.pid, hp.nextPid⟩
  | yield => exact (yield_procs hs).samePids
  | tick => exact tick_pids hs
  | schedule => exact (schedule_effect hs).1.samePids

/-! ## Runs -/

/-- No two slots have the same pid, but for 0. -/
def State.PidsApart (s : State) : Prop := ∀ p q, (s.pcb p).pid = (s.pcb q).pid →
  (s.pcb p).pid ≠ 0 → p = q

/-- The pids have been given in order, up to the number of creations. -/
structure Numbered (t : Tally) : Prop where
  next : t.state.nextPid.toNat = t.created + 1
  below : ∀ p, (t.state.pcb p).pid.toNat ≤ t.created
  apart : t.state.PidsApart

theorem Numbered.init (config : Config) : Numbered (.init config) where
  next := rfl
  below _ := Nat.le_refl 0
  apart _ _ _ h := absurd rfl h

theorem Numbered.same {n : Nat} (h : Numbered ⟨s, n⟩) (hs : SamePids s s') : Numbered ⟨s', n⟩ where
  next := (congrArg UInt32.toNat hs.nextPid).trans h.next
  below p := (congrArg UInt32.toNat (hs.pid p)).trans_le (h.below p)
  apart p q hpq h0 := by
    rw [hs.pid, hs.pid] at hpq
    rw [hs.pid] at h0
    exact h.apart p q hpq h0

/-- **A creation gives a pid that no slot has.** -/
theorem Numbered.create {n : Nat} {a : Pcb} (h : Numbered ⟨s, n⟩) (hn : n + 1 < 2 ^ 32 - 1)
    (hpid : a.pid = s.nextPid) (hpcb : s'.pcb = update s.pcb p a)
    (hnext : s'.nextPid = s.nextPid + 1) : Numbered ⟨s', n + 1⟩ := by
  have hnum : s.nextPid.toNat = n + 1 := h.next
  have hself : (s'.pcb p).pid = s.nextPid := by rw [hpcb, update_self, hpid]
  have hother : ∀ y, y ≠ p → (s'.pcb y).pid = (s.pcb y).pid := fun y hy => by
    rw [hpcb, update_of_ne hy]
  have hfresh : ∀ y, (s.pcb y).pid ≠ s.nextPid := by
    intro y hy
    have hle : (s.pcb y).pid.toNat ≤ n := h.below y
    rw [hy, hnum] at hle
    omega
  refine ⟨?_, fun y => ?_, fun y z hyz h0 => ?_⟩
  · show s'.nextPid.toNat = n + 1 + 1
    have hsmall : n + 1 + 1 < 2 ^ 32 := by omega
    rw [hnext, UInt32.toNat_add, hnum]
    exact Nat.mod_eq_of_lt hsmall
  · show (s'.pcb y).pid.toNat ≤ n + 1
    by_cases hy : y = p
    · rw [hy, hself, hnum]
    · rw [hother y hy]
      exact (h.below y).trans (Nat.le_succ n)
  · by_cases hy : y = p
    · by_cases hz : z = p
      · rw [hy, hz]
      · rw [hy, hself, hother z hz] at hyz
        exact absurd hyz.symm (hfresh z)
    · by_cases hz : z = p
      · rw [hz, hself, hother y hy] at hyz
        exact absurd hyz (hfresh y)
      · rw [hother y hy, hother z hz] at hyz
        rw [hother y hy] at h0
        exact h.apart y z hyz h0

/-- **One call.** -/
theorem step_numbered {t t' : Tally} (h : Numbered t) (ht : TallyStep t op t')
    (hn : t'.created < 2 ^ 32 - 1) : Numbered t' := by
  obtain ⟨s', hs, rfl⟩ := Option.map_eq_some_iff.mp ht
  cases op with
  | create name priority =>
    obtain ⟨⟨s₁, o⟩, hc, rfl⟩ := Option.map_eq_some_iff.mp hs
    rcases create_outcome hc with ⟨-, rfl, rfl⟩ | ⟨p, a, -, rfl, hpid, hpcb, hnext⟩
    · have h0 : creations t.state (.create name priority) = 0 := by simp only [creations, hc]
      rw [h0]
      exact h
    · have h1 : creations t.state (.create name priority) = 1 := by simp only [creations, hc]
      rw [h1] at hn ⊢
      exact h.create hn hpid hpcb hnext
  | terminate pid => exact h.same (step_pids hs nofun)
  | yield => exact h.same (step_pids hs nofun)
  | tick => exact h.same (step_pids hs nofun)
  | schedule => exact h.same (step_pids hs nofun)

theorem run_numbered {t : Tally} (hrun : Reaches TallyStep anyAction (.init config) t)
    (hn : t.created < 2 ^ 32 - 1) : Numbered t := by
  have hall : t.created < 2 ^ 32 - 1 → Numbered t := by
    apply hrun.invariant (I := fun t => t.created < 2 ^ 32 - 1 → Numbered t)
    · exact fun _ => .init config
    intro t op t' ih _ ht hn
    obtain ⟨s', -, rfl⟩ := Option.map_eq_some_iff.mp ht
    exact step_numbered (ih (Nat.lt_of_le_of_lt (Nat.le_add_right _ _) hn)) ht hn
  exact hall hn

/-! ## Slots and pids -/

/-- **With fewer than `2 ^ 32 - 1` creations no two slots have the same pid, and every pid is below
the next one; a creation spares the slots that are in use, and fails when all of them are.** -/
theorem slots_apart {t : Tally} (hrun : Reaches TallyStep anyAction (.init config) t)
    (hn : t.created < 2 ^ 32 - 1) :
    (∀ p q, (t.state.pcb p).pid = (t.state.pcb q).pid → (t.state.pcb p).pid ≠ 0 → p = q) ∧
    (∀ p, (t.state.pcb p).pid ≠ 0 → (t.state.pcb p).pid < t.state.nextPid) ∧
    ∀ name priority,
      (∀ s' o, createProcess t.state name priority = some (s', o) →
        ∀ p, t.state.InUse p → s'.pcb p = t.state.pcb p) ∧
      (createProcess t.state name priority = some (t.state, none) ↔ t.state.Full) ∧
      ∀ s', createProcess t.state name priority = some (s', none) → s' = t.state := by
  have h := run_numbered hrun hn
  refine ⟨h.apart, fun p _ => ?_, fun name priority => ⟨fun s' o hc p hocc => ?_, ⟨fun hc => ?_,
    fun hfull => ?_⟩, fun s' hc => ?_⟩⟩
  · rw [UInt32.lt_iff_toNat_lt, h.next]
    exact Nat.lt_succ_of_le (h.below p)
  · rcases create_outcome hc with ⟨-, -, rfl⟩ | ⟨q, a, hfree, -, -, hpcb, -⟩
    · rfl
    · rw [hpcb, update_of_ne (fun he : p = q => hfree (he ▸ hocc))]
  · rcases create_outcome hc with ⟨hfull, -⟩ | ⟨q, a, -, ho, -⟩
    · exact hfull
    · cases ho
  · unfold createProcess
    rw [findFreePcb_eq_none_iff.mpr hfull]
  · rcases create_outcome hc with ⟨-, -, rfl⟩ | ⟨q, a, -, ho, -⟩
    · rfl
    · cases ho

/-- The slot of the first process is given to a third one. -/
theorem slots_apart_reused : ∃ t : Tally, (t.state.pcb 0).pid = 3 ∧ (t.state.pcb 1).pid = 2 ∧
    (∀ p, (t.state.pcb p).pid ≠ 0 → (t.state.pcb p).pid < t.state.nextPid) ∧
    ¬ t.state.Full := by
  have hx : (exec stepTally (fun _ _ => true) (.init ⟨.fifo, 10, 0, 4, 100⟩)
      [.create [] 0, .create [] 1, .terminate 1, .create [] 0]).map
      (fun t => (t.created, (t.state.pcb 0).pid, (t.state.pcb 1).pid, (t.state.pcb 2).pid)) =
      some (3, 3, 2, 0) := by decide +kernel
  obtain ⟨t, ht, hobs⟩ := Option.map_eq_some_iff.mp hx
  simp only [Prod.mk.injEq] at hobs
  obtain ⟨hcount, h0, h1, h2⟩ := hobs
  have hrun : Reaches TallyStep anyAction (.init ⟨.fifo, 10, 0, 4, 100⟩) t :=
    reaches_of_exec (fun _ _ _ => trivial) (fun _ _ _ hs => hs) ht
  have hall := slots_apart hrun (by rw [hcount]; decide)
  exact ⟨t, h0, h1, hall.2.1, fun hfull => (hfull 2).1 h2⟩

end OSCompas.Scheduler
