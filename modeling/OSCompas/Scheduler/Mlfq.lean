import OSCompas.Scheduler.Lists

/-!
# The rules of the feedback queue

Two of the rules the scheduler states for `SCHED_MLFQ`, call by call: a process that uses up its
slice goes down one level, and the process that runs has the best priority there is.

* `DemotionRule`, `EndsSlice` — the first rule, and the ticks it speaks about;
* `Strict`, `StrictOk` — the second rule after a tick, and what it takes before the tick;
* `Seen` — the search of `scheduler_mlfq_schedule` gets no further than a level.

Principal results: `priority_kept` (no call but the boost changes a priority), `demotion_iff` and
`strict_after_tick`.
-/

set_option autoImplicit false

namespace OSCompas.Scheduler

open Function Runs

variable {s s' s₁ : State} {c p x : Slot} {op : Op} {config : Config}

/-! ## The configuration -/

theorem addToReadyQueue_config (h : addToReadyQueue s p = some s') : s'.config = s.config := by
  obtain ⟨l, -, rfl⟩ := addToReadyQueue_effect h
  rfl

theorem tick_config (h : tick s = some s') : s'.config = s.config := by
  rcases tick_effect h with ⟨-, hst⟩ | ⟨c, -, -, ⟨-, hst⟩ | ⟨x, -, -, hsw⟩⟩
  · exact hst.config
  · exact hst.config
  · exact hsw.config

/-- No call changes the configuration. -/
theorem step_config (hs : Step s op s') : s'.config = s.config := by
  cases op with
  | create name priority =>
    obtain ⟨⟨s₁, o⟩, hcr, rfl⟩ := Option.map_eq_some_iff.mp hs
    rcases create_cases hcr with ⟨-, rfl⟩ | ⟨p, s₀, -, hp, ha⟩
    · rfl
    · exact (addToReadyQueue_config ha).trans hp.config
  | terminate pid =>
    rcases terminate_cases hs with ⟨-, rfl⟩ | ⟨i, -, ⟨c, -, -, hs⟩ | ⟨-, rfl⟩⟩
    · rfl
    · exact (schedule_effect hs).1.config.trans (vacated_effect s i).1.config
    · exact (vacated_effect s i).1.config
  | yield => exact (yield_procs hs).config
  | tick => exact tick_config hs
  | schedule => exact (schedule_effect hs).1.config

theorem run_config (hrun : Reaches Step anyAction (schedulerInit config) s) :
    s.config = config := by
  apply hrun.invariant (I := fun s => s.config = config)
  · rfl
  · intro s op s' h _ hs
    exact (step_config hs).trans h

/-! ## Demotion -/

/-- The next tick finds the slice of `c` used up. -/
def UsesUp (s : State) (c : Slot) : Prop := (s.pcb c).timeSlice ≤ (s.pcb c).timeSliceUsed + 1

/-- The next tick is one at which the boost fires. -/
def BoostFires (s : State) : Prop := s.boostInterval ≤ s.systemTicks + 1 - s.lastBoostTime

/-- What the rules say about a call: a used-up slice costs a level, a slice given away does not. -/
structure DemotionRule (s : State) (op : Op) (s' : State) : Prop where
  demoted : op = .tick → ∀ c, s.current = some c → UsesUp s c → (s.pcb c).priority.toNat < 3 →
    ¬ BoostFires s → (s'.pcb c).priority.toNat = (s.pcb c).priority.toNat + 1 ∧
      ∃ j, j.val = (s.pcb c).priority.toNat + 1 ∧ c ∈ s'.list (.level j)
  kept : op = .yield → ∀ c, s.current = some c →
    (s.pcb c).timeSliceUsed < (s.pcb c).timeSlice → (s'.pcb c).priority = (s.pcb c).priority

/-- A tick that ends the slice of a process above the lowest level, without a boost. -/
def EndsSlice (s : State) (op : Op) : Prop :=
  op = .tick ∧ ∃ c, s.current = some c ∧ UsesUp s c ∧ (s.pcb c).priority.toNat < 3 ∧
    ¬ BoostFires s

/-- Without a boost a tick changes no priority. -/
theorem tick_priority (h : tick s = some s') (hb : ¬ s.boostDue) (p : Slot) :
    (s'.pcb p).priority = (s.pcb p).priority := by
  rcases tick_cases h with ⟨-, rfl⟩ | ⟨c, s₁, hc, hsl, hbo⟩
  · rfl
  · have hch := (charged_effect s c).priority p
    have h₁ : (s₁.pcb p).priority = (s.pcb p).priority := by
      rcases hsl with ⟨-, hy⟩ | ⟨-, rfl⟩
      · have hcur : (s.charged c).current = some c := (charged_effect s c).current.trans hc
        exact ((yield_effect hcur hy).1.priority p).trans hch
      · exact hch
    rcases hbo with ⟨-, hst, -⟩ | ⟨hdue, -⟩
    · exact (hst.priority p).trans h₁
    · exact absurd hdue hb

/-- **The rule holds of a call exactly if it is not a tick that ends a slice above the lowest
level**: no such tick takes a level away, and no other call has to. -/
theorem demotion_iff (ht : config.type = .mlfq)
    (hrun : Reaches Step anyAction (schedulerInit config) s) (hs : Step s op s') :
    DemotionRule s op s' ↔ ¬ EndsSlice s op := by
  have hdue : s.boostDue ↔ BoostFires s := by
    unfold State.boostDue BoostFires
    rw [run_config hrun]
    exact and_iff_right ht
  constructor
  · rintro hrule ⟨rfl, c, hc, hu, hlt, hb⟩
    obtain ⟨hdown, -⟩ := hrule.demoted rfl c hc hu hlt hb
    have hsame := tick_priority hs (fun h => hb (hdue.mp h)) c
    rw [hsame] at hdown
    omega
  · intro hno
    constructor
    · intro hop c hc hu hlt hb
      exact absurd ⟨hop, c, hc, hu, hlt, hb⟩ hno
    · rintro rfl c _ _
      exact (yield_procs hs).priority c

/-- A process gives up the second half of its slice. -/
theorem demotion_iff_run : ∃ s s', s.current = some 0 ∧ (s.pcb 0).timeSliceUsed = 5 ∧
    Reaches Step anyAction (schedulerInit ⟨.mlfq, 10, 1, 4, 100⟩) s ∧ Step s .yield s' ∧
    DemotionRule s .yield s' := by
  have hx : (exec step (fun _ _ => true) (schedulerInit ⟨.mlfq, 10, 1, 4, 100⟩)
      [.create [] 0, .schedule, .tick, .tick, .tick, .tick, .tick]).bind
      (fun s => (step s .yield).map fun _ => (s.current, (s.pcb 0).timeSliceUsed)) =
      some (some 0, 5) := by decide +kernel
  obtain ⟨s, hrun, hobs⟩ := Option.bind_eq_some_iff.mp hx
  obtain ⟨s', hs, hobs⟩ := Option.map_eq_some_iff.mp hobs
  obtain ⟨hc, hu⟩ := Prod.mk.inj hobs
  have hrun := anyRun_of_exec hrun
  refine ⟨s, s', hc, hu, hrun, hs, (demotion_iff rfl hrun hs).mpr ?_⟩
  rintro ⟨h, -⟩
  cases h

/-- One process runs through its slice of ten ticks and stays at level 0. -/
theorem not_demoted : ¬ ∀ config s op s', config.type = .mlfq → config.enablePreemption ≠ 0 →
    Reaches Step anyAction (schedulerInit config) s → Step s op s' → DemotionRule s op s' := by
  intro hall
  have hx : (exec step (fun _ _ => true) (schedulerInit ⟨.mlfq, 10, 1, 4, 100⟩)
      [.create [] 0, .schedule, .tick, .tick, .tick, .tick, .tick, .tick, .tick, .tick, .tick]).bind
      (fun s => (step s .tick).map fun s' => ((s.current, (s.pcb 0).timeSlice,
        (s.pcb 0).timeSliceUsed), (s.boostInterval, s.systemTicks, s.lastBoostTime),
          (s.pcb 0).priority, (s'.pcb 0).priority)) =
      some ((some 0, 10, 9), (100, 9, 0), 0, 0) := by decide +kernel
  obtain ⟨s, hrun, hobs⟩ := Option.bind_eq_some_iff.mp hx
  obtain ⟨s', hs, hobs⟩ := Option.map_eq_some_iff.mp hobs
  simp only [Prod.mk.injEq] at hobs
  obtain ⟨⟨hc, hsl, hu⟩, ⟨hi, hti, hl⟩, hp, hp'⟩ := hobs
  have hrule := hall ⟨.mlfq, 10, 1, 4, 100⟩ s .tick s' rfl (by decide) (anyRun_of_exec hrun) hs
  have hdown := hrule.demoted rfl 0 hc (by unfold UsesUp; rw [hsl, hu]; decide)
    (by rw [hp]; decide) (by unfold BoostFires; rw [hi, hti, hl]; decide)
  rw [hp, hp'] at hdown
  exact absurd hdown.1 (by decide)

/-! ## Strict priority -/

/-- No ready process has a smaller priority number than the current one. -/
def Strict (s : State) : Prop :=
  ∀ c q, s.current = some c → (s.pcb q).state = .ready →
    (s.pcb c).priority.toNat ≤ (s.pcb q).priority.toNat

/-- With `c` back in its queue, a search from level 0 on finds a count at level `n` or before. -/
def Seen (s : State) (c : Slot) (n : Nat) : Prop :=
  ∃ j : Fin MAX_PRIORITY_LEVELS, j.val ≤ n ∧
    ((s.links.queue (.level j)).count ≠ 0 ∨ s.homeQueue c = .level j)

/-- What stands first in a level queue has the level for its priority, and something stands first
where there is a count. -/
structure HeadsTrue (s : State) : Prop where
  head : ∀ j h, (s.links.queue (.level j)).head = some h → (s.pcb h).priority.toNat = j.val
  counted : ∀ j, (s.links.queue (.level j)).count ≠ 0 → (s.links.queue (.level j)).head ≠ none

/-- No ready process but `c`. -/
def NoneReady (s : State) (c : Slot) : Prop := ∀ q, (s.pcb q).state = .ready → q = c

/-- The slice of `c` goes on: nobody better is waiting, and a boost lifts nobody past `c`. -/
structure GoesOn (s : State) (c : Slot) : Prop where
  best : ∀ q, (s.pcb q).state = .ready → (s.pcb c).priority.toNat ≤ (s.pcb q).priority.toNat
  boost : s.boostDue → (s.pcb c).priority = 0 ∨ NoneReady s c

/-- The levels can be searched once `c` is back in its queue. -/
structure Searchable (s : State) (c : Slot) : Prop where
  heads : HeadsTrue s
  managed : (s.pcb c).priority.toNat < 4
  room : (s.links.queue (s.homeQueue c)).count + 1 ≠ 0

/-- The slice of `c` ends: the search for the next process passes nobody by, and if a boost comes
with it, it ends at level 0 or there is only `c`. -/
structure HandsOver (s : State) (c : Slot) : Prop extends Searchable s c where
  seen : ∀ q, (s.pcb q).state = .ready → q ≠ c → Seen s c (s.pcb q).priority.toNat
  boost : s.boostDue → Seen s c 0 ∨
    NoneReady s c ∧ (∀ j, (s.links.queue (.level j)).count ≠ 0 → s.homeQueue c = .level j) ∧
      (s.links.queue (s.homeQueue c)).head = none

/-- What a tick needs to leave the best process running. -/
def StrictOk (s : State) (c : Slot) : Prop :=
  (¬ s.expires c → GoesOn s c) ∧ (s.expires c → HandsOver s c)

/-! ### The conditions are decided by looking at the state -/

instance (s : State) (c : Slot) (n : Nat) : Decidable (Seen s c n) :=
  inferInstanceAs (Decidable (∃ _, _))

instance (s : State) : Decidable (HeadsTrue s) :=
  decidable_of_iff
    ((∀ j h, (s.links.queue (.level j)).head = some h → (s.pcb h).priority.toNat = j.val) ∧
      ∀ j, (s.links.queue (.level j)).count ≠ 0 → (s.links.queue (.level j)).head ≠ none)
    ⟨fun h => ⟨h.1, h.2⟩, fun h => ⟨h.head, h.counted⟩⟩

instance (s : State) (c : Slot) : Decidable (NoneReady s c) :=
  inferInstanceAs (Decidable (∀ _, _))

instance (s : State) (c : Slot) : Decidable (GoesOn s c) :=
  decidable_of_iff
    ((∀ q, (s.pcb q).state = .ready → (s.pcb c).priority.toNat ≤ (s.pcb q).priority.toNat) ∧
      (s.boostDue → (s.pcb c).priority = 0 ∨ NoneReady s c))
    ⟨fun h => ⟨h.1, h.2⟩, fun h => ⟨h.best, h.boost⟩⟩

instance (s : State) (c : Slot) : Decidable (Searchable s c) :=
  decidable_of_iff
    (HeadsTrue s ∧ (s.pcb c).priority.toNat < 4 ∧
      (s.links.queue (s.homeQueue c)).count + 1 ≠ 0)
    ⟨fun h => ⟨h.1, h.2.1, h.2.2⟩, fun h => ⟨h.heads, h.managed, h.room⟩⟩

instance (s : State) (c : Slot) : Decidable (HandsOver s c) :=
  decidable_of_iff
    (Searchable s c ∧
      (∀ q, (s.pcb q).state = .ready → q ≠ c → Seen s c (s.pcb q).priority.toNat) ∧
      (s.boostDue → Seen s c 0 ∨
        NoneReady s c ∧ (∀ j, (s.links.queue (.level j)).count ≠ 0 → s.homeQueue c = .level j) ∧
          (s.links.queue (s.homeQueue c)).head = none))
    ⟨fun h => ⟨h.1, h.2.1, h.2.2⟩, fun h => ⟨h.toSearchable, h.seen, h.boost⟩⟩

instance (s : State) (c : Slot) : Decidable (StrictOk s c) := inferInstanceAs (Decidable (_ ∧ _))

/-! ### The search -/

/-- The queues once `c` is back in its own. -/
def State.requeued (s : State) (c : Slot) : QueueId → ReadyQueue :=
  update s.links.queue (s.homeQueue c)
    ⟨(s.links.queue (s.homeQueue c)).head.or (some c), some c,
      (s.links.queue (s.homeQueue c)).count + 1⟩

theorem requeued_home (s : State) (c : Slot) : s.requeued c (s.homeQueue c) =
    ⟨(s.links.queue (s.homeQueue c)).head.or (some c), some c,
      (s.links.queue (s.homeQueue c)).count + 1⟩ := update_self ..

theorem requeued_of_ne {k : QueueId} (h : k ≠ s.homeQueue c) :
    s.requeued c k = s.links.queue k := update_of_ne h ..

/-- The process of a level other than the cut-off ones has the level for its priority. -/
theorem homeQueue_level (ht : s.config.type = .mlfq) (hm : (s.pcb c).priority.toNat < 4)
    {j : Fin MAX_PRIORITY_LEVELS} (h : s.homeQueue c = .level j) :
    (s.pcb c).priority.toNat = j.val := by
  unfold State.homeQueue at h
  rw [if_pos ht] at h
  have hj := congrArg Fin.val (QueueId.level.inj h)
  dsimp only at hj
  omega

theorem homeQueue_eq_level (ht : s.config.type = .mlfq) (c : Slot) :
    ∃ j : Fin MAX_PRIORITY_LEVELS, s.homeQueue c = .level j ∧
      j.val ≤ (s.pcb c).priority.toNat := by
  unfold State.homeQueue
  rw [if_pos ht]
  exact ⟨_, rfl, Nat.min_le_left _ _⟩

/-- A level that the search sees has a count once `c` is back. -/
theorem Searchable.requeued_ne_zero (hw : Searchable s c) {j : Fin MAX_PRIORITY_LEVELS}
    (h : (s.links.queue (.level j)).count ≠ 0 ∨ s.homeQueue c = .level j) :
    (s.requeued c (.level j)).count ≠ 0 := by
  by_cases hj : .level j = s.homeQueue c
  · rw [hj, requeued_home]
    exact hw.room
  · rw [requeued_of_ne hj]
    exact h.resolve_right (Ne.symm hj)

/-- **The process that is picked when `c` hands over**: it has the priority of the first level that
the search sees. -/
theorem Searchable.pick (ht : s.config.type = .mlfq) (hw : Searchable s c) :
    ∃ x, s.pickWith c = some x ∧ (∀ n, Seen s c n ↔ (s.pcb x).priority.toNat ≤ n) ∧
      (x = c ∨ ∃ j, (s.links.queue (.level j)).head = some x ∧
        ((s.links.queue (.level j)).count ≠ 0 ∨ s.homeQueue c = .level j)) := by
  obtain ⟨h, hh, -⟩ := homeQueue_eq_level ht c
  have hscan : s.pickWith c = (Fin.find? fun j : Fin MAX_PRIORITY_LEVELS =>
      decide ((s.requeued c (.level j)).count > 0)).bind fun j =>
        (s.requeued c (.level j)).head := by
    unfold State.pickWith State.pickFrom State.scan
    dsimp only
    rw [if_pos ht, List.find?_map, Option.bind_map, Fin.find?_eq_find?_finRange]
    rfl
  cases hf : Fin.find? fun j : Fin MAX_PRIORITY_LEVELS =>
      decide ((s.requeued c (.level j)).count > 0) with
  | none =>
    have hno := Fin.eq_false_of_find?_eq_none hf h
    rw [decide_eq_false_iff_not, count_pos_iff, not_not] at hno
    exact absurd hno (hw.requeued_ne_zero (.inr hh))
  | some j =>
    obtain ⟨hj, hfirst⟩ := Fin.find?_eq_some_iff.mp hf
    rw [decide_eq_true_iff, count_pos_iff] at hj
    rw [hf, Option.bind_some] at hscan
    have hsee : (s.links.queue (.level j)).count ≠ 0 ∨ s.homeQueue c = .level j := by
      by_cases hjc : .level j = s.homeQueue c
      · exact .inr hjc.symm
      · rw [requeued_of_ne hjc] at hj
        exact .inl hj
    have hleast : ∀ n, Seen s c n ↔ j.val ≤ n := by
      intro n
      constructor
      · rintro ⟨i, hin, hi⟩
        by_contra hlt
        have hno := hfirst i (Fin.lt_def.mpr (by omega))
        rw [decide_eq_false_iff_not, count_pos_iff, not_not] at hno
        exact hw.requeued_ne_zero hi hno
      · intro hle
        exact ⟨j, hle, hsee⟩
    by_cases hjc : .level j = s.homeQueue c
    · rw [hjc, requeued_home] at hscan
      cases hd : (s.links.queue (s.homeQueue c)).head with
      | none =>
        rw [hd, Option.none_or] at hscan
        refine ⟨c, hscan, ?_, .inl rfl⟩
        rw [homeQueue_level ht hw.managed hjc.symm]
        exact hleast
      | some y =>
        rw [hd, Option.some_or] at hscan
        rw [← hjc] at hd
        refine ⟨y, hscan, ?_, .inr ⟨j, hd, hsee⟩⟩
        rw [hw.heads.head j y hd]
        exact hleast
    · rw [requeued_of_ne hjc] at hscan hj
      cases hd : (s.links.queue (.level j)).head with
      | none => exact absurd hd (hw.heads.counted j hj)
      | some y =>
        rw [hd] at hscan
        refine ⟨y, hscan, ?_, .inr ⟨j, hd, hsee⟩⟩
        rw [hw.heads.head j y hd]
        exact hleast

/-! ### What a boost does to priorities -/

/-- Every priority stays or becomes the best there is. -/
def Lifted (s s' : State) : Prop :=
  ∀ p, (s'.pcb p).priority = (s.pcb p).priority ∨ (s'.pcb p).priority = 0

theorem Lifted.refl (s : State) : Lifted s s := fun _ => .inl rfl

theorem Lifted.trans {s'' : State} (h : Lifted s s') (h' : Lifted s' s'') : Lifted s s'' := by
  intro p
  rcases h' p with hp | hp
  · rw [hp]
    exact h p
  · exact .inr hp

theorem Lifted.zero (h : Lifted s s') (hp : (s.pcb p).priority = 0) :
    (s'.pcb p).priority = 0 := by
  rcases h p with hsame | hzero
  · rw [hsame, hp]
  · exact hzero

theorem boostOne_lifted {i : Fin MAX_PRIORITY_LEVELS} (h : boostOne s i = some s') :
    Lifted s s' := by
  obtain ⟨x, -, -, -, -, rfl⟩ := boostOne_cases h
  intro p
  by_cases hp : p = x
  · right
    simp [hp]
  · left
    simp [hp]

theorem boostPriority_lifted (h : boostPriority s = some s') : Lifted s s' :=
  boostPriority_rel .refl (fun _ _ _ => .trans) (fun _ _ _ => boostOne_lifted) h

theorem SameProcs.lifted (h : SameProcs s s') : Lifted s s' := fun p => .inl (h.priority p)

theorem tick_lifted (h : tick s = some s') : Lifted s s' := by
  rcases tick_cases h with ⟨-, rfl⟩ | ⟨c, s₁, hc, hsl, hbo⟩
  · exact .refl s
  · have hch : Lifted s (s.charged c) := fun p => .inl ((charged_effect s c).priority p)
    have h₁ : Lifted s s₁ := by
      rcases hsl with ⟨-, hy⟩ | ⟨-, rfl⟩
      · have hcur : (s.charged c).current = some c := (charged_effect s c).current.trans hc
        exact hch.trans (yield_effect hcur hy).1.lifted
      · exact hch
    rcases hbo with ⟨-, hst, -⟩ | ⟨-, s₂, s₃, ⟨hst, -⟩, hb, rfl⟩
    · exact h₁.trans hst.toSameProcs.lifted
    · have h₃ := (h₁.trans hst.toSameProcs.lifted).trans (boostPriority_lifted hb)
      exact h₃

/-! ### After a tick -/

/-- A process that was not worse than another one is not, unless a boost lifts the other one. -/
theorem tick_le (h : tick s = some s') {q : Slot}
    (hle : (s.pcb p).priority.toNat ≤ (s.pcb q).priority.toNat)
    (hb : s.boostDue → (s.pcb p).priority = 0) :
    (s'.pcb p).priority.toNat ≤ (s'.pcb q).priority.toNat := by
  by_cases hd : s.boostDue
  · rw [(tick_lifted h).zero (hb hd)]
    exact Nat.zero_le _
  · rw [tick_priority h hd, tick_priority h hd]
    exact hle

/-- What a tick that ends the slice of `c` leaves: the picked process `x` runs, and `c` is ready
unless it is `x`. -/
theorem handed_over {o : Option Slot} (hc : s.current = some c)
    (h : ((o = none ∨ o = some c) ∧ SameStates (s.setState c .ready) s') ∨
      ∃ x, o = some x ∧ x ≠ c ∧ Switched s s' x) (ho : o = some x) :
    s'.current = some x ∧
      ∀ q, q ≠ x → ((s'.pcb q).state = .ready ↔ (s.pcb q).state = .ready ∨ q = c) := by
  rcases h with ⟨hp, hst⟩ | ⟨y, hy, -, hsw⟩
  · have hxc : x = c := by
      rw [ho] at hp
      exact Option.some.inj (hp.resolve_left (by simp))
    refine ⟨hst.current.trans (hxc ▸ hc), fun q hqx => ?_⟩
    rw [hst.state, setState_state, if_neg (hxc ▸ hqx)]
    exact (or_iff_left (hxc ▸ hqx)).symm
  · obtain rfl : x = y := Option.some.inj (ho.symm.trans hy)
    refine ⟨hsw.current, fun q hqx => ?_⟩
    rw [hsw.state, if_neg hqx, hc]
    by_cases hqc : q = c
    · simp [hqc]
    · simp [hqc, Ne.symm hqc]

/-- **A tick leaves the best process running** if the slice goes on with the best one, or the
search at its end passes nobody by. -/
theorem strict_of_ok (ht : s.config.type = .mlfq) (hc : s.current = some c)
    (hs : tick s = some s') (hok : StrictOk s c) : Strict s' := by
  intro d q hd hq
  rcases tick_effect hs with ⟨hno, hst⟩ | ⟨c', hc', he, heff⟩
  · -- the slice goes on
    have hgo := hok.1 (hno c hc)
    obtain rfl : c = d := Option.some.inj (hc.symm.trans (hst.current.symm.trans hd))
    rw [hst.state] at hq
    by_cases hqc : q = c
    · rw [hqc]
    · apply tick_le hs (hgo.best q hq)
      intro hb
      exact (hgo.boost hb).resolve_right fun hn => hqc (hn q hq)
  · -- the slice ends
    obtain rfl : c = c' := Option.some.inj (hc.symm.trans hc')
    have hw := hok.2 he
    obtain ⟨x, hx, hleast, hfrom⟩ := hw.pick ht
    obtain ⟨hcur, hready⟩ := handed_over hc heff hx
    obtain rfl : x = d := Option.some.inj (hcur.symm.trans hd)
    by_cases hqx : q = x
    · rw [hqx]
    · have hq' := (hready q hqx).mp hq
      have hle : (s.pcb x).priority.toNat ≤ (s.pcb q).priority.toNat := by
        apply (hleast _).mp
        by_cases hqc : q = c
        · obtain ⟨j, hj, hle⟩ := homeQueue_eq_level ht c
          rw [hqc]
          exact ⟨j, hle, .inr hj⟩
        · exact hw.seen q (hq'.resolve_right hqc) hqc
      apply tick_le hs hle
      intro hb
      rcases hw.boost hb with hseen | ⟨hn, hcount, hhead⟩
      · exact UInt8.toNat_inj.mp (Nat.le_zero.mp ((hleast 0).mp hseen))
      · -- nobody but `c` is ready, and the search ends at `c`
        have hqc : q = c := hq'.elim (hn q) id
        rcases hfrom with hxc | ⟨j, hj, hsee⟩
        · exact absurd (hqc.trans hxc.symm) hqx
        · have hjc : s.homeQueue c = .level j := hsee.elim (hcount j) id
          rw [← hjc, hhead] at hj
          cases hj

/-- Without a boost it does so only then. -/
theorem ok_of_strict (ht : s.config.type = .mlfq) (hc : s.current = some c)
    (hs : tick s = some s') (hb : ¬ s.boostDue) (hse : s.expires c → Searchable s c)
    (hst' : Strict s') : StrictOk s c := by
  have hprio := tick_priority hs hb
  rcases tick_effect hs with ⟨hno, hst⟩ | ⟨c', hc', he, heff⟩
  · refine ⟨fun _ => ⟨fun q hq => ?_, fun hd => absurd hd hb⟩, fun he => absurd he (hno c hc)⟩
    have hle := hst' c q (hst.current.trans hc) ((hst.state q).trans hq)
    rw [hprio, hprio] at hle
    exact hle
  · obtain rfl : c = c' := Option.some.inj (hc.symm.trans hc')
    obtain ⟨x, hx, hleast, -⟩ := (hse he).pick ht
    obtain ⟨hcur, hready⟩ := handed_over hc heff hx
    refine ⟨fun hno => absurd he hno, fun _ => ⟨hse he, fun q hq _ => ?_, fun hd => absurd hd hb⟩⟩
    apply (hleast _).mpr
    by_cases hqx : q = x
    · rw [hqx]
    · have hle := hst' x q hcur ((hready q hqx).mpr (.inl hq))
      rw [hprio, hprio] at hle
      exact hle

/-- **In every run a tick that meets the condition leaves the best process running**; without a
boost, and where the levels can be searched, the condition is exact. -/
theorem strict_after_tick (ht : config.type = .mlfq)
    (hrun : Reaches Step anyAction (schedulerInit config) s) (hc : s.current = some c)
    (hs : Step s .tick s') :
    (StrictOk s c → Strict s') ∧
      (¬ s.boostDue → (s.expires c → Searchable s c) → (Strict s' ↔ StrictOk s c)) := by
  have ht' : s.config.type = .mlfq := by
    rw [run_config hrun]
    exact ht
  constructor
  · intro hok
    exact strict_of_ok ht' hc hs hok
  · intro hb hse
    constructor
    · intro hst
      exact ok_of_strict ht' hc hs hb hse hst
    · intro hok
      exact strict_of_ok ht' hc hs hok

/-- The process at level 0 uses up its slice while one waits at level 1. -/
theorem strict_after_tick_run : ∃ s s', s.current = some 0 ∧ s.expires 0 ∧
    (s.pcb 1).state = .ready ∧
    Reaches Step anyAction (schedulerInit ⟨.mlfq, 10, 1, 4, 100⟩) s ∧ Step s .tick s' ∧
    Strict s' := by
  have hx : (exec step (fun _ _ => true) (schedulerInit ⟨.mlfq, 10, 1, 4, 100⟩)
      [.create [] 0, .create [] 1, .schedule, .tick, .tick, .tick, .tick, .tick, .tick, .tick,
        .tick, .tick]).bind
      (fun s => (step s .tick).map fun _ => (s.current, decide (s.expires 0), (s.pcb 1).state,
        decide (StrictOk s 0))) = some (some 0, true, .ready, true) := by decide +kernel
  obtain ⟨s, hrun, hobs⟩ := Option.bind_eq_some_iff.mp hx
  obtain ⟨s', hs, hobs⟩ := Option.map_eq_some_iff.mp hobs
  simp only [Prod.mk.injEq] at hobs
  obtain ⟨hc, he, hr, hok⟩ := hobs
  have hrun := anyRun_of_exec hrun
  exact ⟨s, s', hc, of_decide_eq_true he, hr, hrun, hs,
    (strict_after_tick rfl hrun hc hs).1 (of_decide_eq_true hok)⟩

/-- A process arrives at level 0 while one of level 2 runs; at the next tick it is still waiting. -/
theorem not_strict_after_tick : ¬ ∀ config s s', config.type = .mlfq →
    config.enablePreemption ≠ 0 → Reaches Step anyAction (schedulerInit config) s →
    s.current ≠ none → Step s .tick s' → Strict s' := by
  intro hall
  have hx : (exec step (fun _ _ => true) (schedulerInit ⟨.mlfq, 10, 1, 4, 100⟩)
      [.create [] 2, .schedule, .create [] 0]).bind
      (fun s => (step s .tick).map fun s' => (s.current, s'.current, (s'.pcb 1).state,
        (s'.pcb 0).priority, (s'.pcb 1).priority)) =
      some (some 0, some 0, .ready, 2, 0) := by decide +kernel
  obtain ⟨s, hrun, hobs⟩ := Option.bind_eq_some_iff.mp hx
  obtain ⟨s', hs, hobs⟩ := Option.map_eq_some_iff.mp hobs
  simp only [Prod.mk.injEq] at hobs
  obtain ⟨hc, hc', hr, hp, hp'⟩ := hobs
  have hle := hall ⟨.mlfq, 10, 1, 4, 100⟩ s s' rfl (by decide) (anyRun_of_exec hrun)
    (by rw [hc]; decide) hs 0 1 hc' hr
  rw [hp, hp'] at hle
  exact absurd hle (by decide)

end OSCompas.Scheduler
