import OSCompas.Kernel.Helpers

/-!
# Changing the priority of a ready process

`scheduler_set_priority` takes a ready process out of the ready structure and queues it again; under
MLFQ nothing is taken out, and the process is queued by its `queue_level`, which stays.

* `TakesEffect` — the property.

Principal results: `setPriority_queues` and `takes_effect_iff`.
-/

set_option autoImplicit false

namespace OSCompas.Kernel

open Function Runs

/-- The level of a priority: its own, or the last. -/
def levelOf (priority : UInt8) : Fin MAX_PRIORITY_LEVELS :=
  ⟨min priority.toNat (MAX_PRIORITY_LEVELS - 1),
    Nat.lt_of_le_of_lt (Nat.min_le_right _ _) (by decide)⟩

/-- The process is in the queue of the level, once, and in no other; the other processes stay. -/
structure TakesEffect (s s' : State) (p : Slot) (level : Fin MAX_PRIORITY_LEVELS) : Prop where
  once : (s'.mlfq.queues level).count p = 1
  nowhere : ∀ i, i ≠ level → p ∉ s'.mlfq.queues i
  others : ∀ i, (s'.mlfq.queues i).filter (· ≠ p) = (s.mlfq.queues i).filter (· ≠ p)

/-- `pcb_set_priority` writes the priority only. -/
def Helpers.SetsPriority (H : Helpers) : Prop :=
  ∀ q n, H.pcbSetPriority q n = { q with priority := n }

theorem listHelpers_setsPriority : listHelpers.SetsPriority := fun _ _ => rfl

variable {H : Helpers} {lv : UInt8 → Fin MAX_PRIORITY_LEVELS} {s : State} {p : Slot}
  {pid : UInt32}

/-- **Under MLFQ the process is appended once more**, at the level it had. -/
theorem setPriority_queues (hset : H.SetsPriority) (hlv : H.Levels lv)
    (ht : s.config.schedulerType = .mlfq) (hfind : H.processTableFind s.table pid = some p)
    (hr : (s.pcb p).state = .ready) (n : UInt8) :
    (setPriority H s pid n).1.mlfq.queues = update s.mlfq.queues (lv (s.pcb p).queueLevel)
      (s.mlfq.queues (lv (s.pcb p).queueLevel) ++ [p]) := by
  unfold setPriority
  rw [hfind]
  dsimp only
  generalize (if 4 ≤ n then 3 else n) = level
  set t : State := State.setPcb (s.setPcb p _) p _ with htdef
  have hp : t.pcb p = { s.pcb p with
      priority := level
      timeSlice := H.calculateTimeSlice level s.config.timeQuantum } := by
    rw [htdef, setPcb_self, setPcb_self, hset]
    rfl
  have hready : (t.pcb p).state = .ready := by
    rw [hp]
    exact hr
  have hrem : removeFromReadyQueueInternal H t p = t := by
    have htype : t.config.schedulerType = .mlfq := ht
    unfold removeFromReadyQueueInternal
    rw [htype]
  rw [if_pos hready, hrem]
  unfold addToReadyQueueInternal
  have htype : t.config.schedulerType = .mlfq := ht
  rw [if_neg (by rw [hready]; simp), htype]
  show (H.mlfqEnqueue s.mlfq p (t.pcb p).queueLevel).queues = _
  rw [hlv.append, hp]

/-- **A priority change takes effect exactly if** the process was in no queue and its `queue_level`
is the level of the priority already. -/
theorem takes_effect_iff (hset : H.SetsPriority) (hlv : H.Levels lv)
    (ht : s.config.schedulerType = .mlfq) (hfind : H.processTableFind s.table pid = some p)
    (hr : (s.pcb p).state = .ready) (n : UInt8) :
    TakesEffect s (setPriority H s pid n).1 p (levelOf n) ↔
      (∀ i, p ∉ s.mlfq.queues i) ∧ lv (s.pcb p).queueLevel = levelOf n := by
  have hq := setPriority_queues hset hlv ht hfind hr n
  generalize lv (s.pcb p).queueLevel = l at hq ⊢
  constructor
  · rintro ⟨honce, hno, -⟩
    have hl : l = levelOf n := by
      by_contra hne
      apply hno l hne
      rw [hq, update_self]
      simp
    subst hl
    refine ⟨fun i hi => ?_, rfl⟩
    by_cases hil : i = levelOf n
    · subst hil
      rw [hq, update_self, List.count_append, List.count_singleton_self] at honce
      have hpos := List.count_pos_iff.mpr hi
      omega
    · apply hno i hil
      rw [hq, update_of_ne hil]
      exact hi
  · rintro ⟨hnone, rfl⟩
    refine ⟨?_, fun i hi => ?_, fun i => ?_⟩
    · rw [hq, update_self, List.count_append, List.count_singleton_self,
        List.count_eq_zero_of_not_mem (hnone _)]
    · rw [hq, update_of_ne hi]
      exact hnone i
    · rw [hq]
      by_cases hi : i = levelOf n
      · subst hi
        simp
      · rw [update_of_ne hi]

/-- A process of priority 0 that waits gets priority 2. -/
theorem takes_effect_iff_two : ∃ s, s.config.schedulerType = .mlfq ∧
    listHelpers.processTableFind s.table 2 = some 1 ∧ (s.pcb 1).state = .ready ∧
    (TakesEffect s (setPriority listHelpers s 2 2).1 1 (levelOf 2) ↔
      (∀ i, 1 ∉ s.mlfq.queues i) ∧ lastLevel (s.pcb 1).queueLevel = levelOf 2) := by
  have hx : (exec (step listHelpers) (fun _ _ => true)
      (schedulerInit listHelpers ⟨0, 0, 0, 0⟩ none) [.create [] .user 0 0]).map (fun s =>
        (s.config.schedulerType, listHelpers.processTableFind s.table 2, (s.pcb 1).state)) =
          some (.mlfq, some 1, .ready) := by decide +kernel
  obtain ⟨s, -, hs⟩ := Option.map_eq_some_iff.mp hx
  simp only [Prod.mk.injEq] at hs
  obtain ⟨ht, hfind, hr⟩ := hs
  exact ⟨s, ht, hfind, hr,
    takes_effect_iff listHelpers_setsPriority listHelpers_levels ht hfind hr 2⟩

/-- That process waits at level 0 twice. -/
theorem queued_twice : ¬ ∀ (H : Helpers) (lv : UInt8 → Fin MAX_PRIORITY_LEVELS)
    (statics : Statics) (config : Option Config) (s : State) (p : Slot) (pid : UInt32) (n : UInt8),
    H.Documented → H.SetsPriority → H.Levels lv →
    Reaches (Step H) anyAction (schedulerInit H statics config) s →
    s.config.schedulerType = .mlfq → H.processTableFind s.table pid = some p →
    (s.pcb p).state = .ready → TakesEffect s (setPriority H s pid n).1 p (levelOf n) := by
  intro hall
  have hx : (exec (step listHelpers) (fun _ _ => true)
      (schedulerInit listHelpers ⟨0, 0, 0, 0⟩ none) [.create [] .user 0 0]).map (fun s =>
        (s.config.schedulerType, listHelpers.processTableFind s.table 2, (s.pcb 1).state,
          ((setPriority listHelpers s 2 2).1.mlfq.queues 2).count 1,
          ((setPriority listHelpers s 2 2).1.mlfq.queues 0).count 1)) =
          some (.mlfq, some 1, .ready, 0, 2) := by decide +kernel
  obtain ⟨s, hrun, hs⟩ := Option.map_eq_some_iff.mp hx
  simp only [Prod.mk.injEq] at hs
  obtain ⟨ht, hfind, hr, hnone, -⟩ := hs
  have honce := (hall listHelpers lastLevel _ none s 1 2 2 listHelpers_documented
    listHelpers_setsPriority listHelpers_levels (anyRun_of_exec hrun) ht hfind hr).once
  have hzero : ((setPriority listHelpers s 2 2).1.mlfq.queues (levelOf 2)).count 1 = 0 := hnone
  rw [hzero] at honce
  exact absurd honce (by decide)

end OSCompas.Kernel
