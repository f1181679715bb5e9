import OSCompas.Scheduler.Slices

/-!
# The slice a dispatched process gets

`scheduler_create_process` computes `10 * (4 - priority)` in 32 bits, and `scheduler_mlfq_init`
fills the table of slices for `mlfq_levels` levels only, while `add_to_ready_queue` uses all four.

* `Fits L priority` — `add_to_ready_queue` puts the priority on one of the first `L` levels;
* `Config.Suits` — the priorities that get a sane slice;
* `SaneDispatch` — the property of one dispatch, `SaneRuns` that of all dispatches of all runs;
* `Sliced` — what holds along the runs that create processes with suitable priorities only.

Principal results: `step_sliced`, `dispatch_sane` and `sane_iff_suits`.
-/

set_option autoImplicit false

namespace OSCompas.Scheduler

open Function Runs

variable {s s' s₁ t t' : State} {l l' : Links} {k : QueueId} {c p x i : Slot} {o : Option Slot}
variable {config : Config} {op : Op} {L : Nat} {allowed : UInt8 → Prop}

/-! ## The property -/

/-- At least 1, and at most the maximum of 80 and the quantum. -/
def SaneSlice (config : Config) (slice : UInt32) : Prop :=
  1 ≤ slice ∧ slice.toNat ≤ max 80 config.timeQuantum.toNat

/-- If `scheduler_schedule` makes another process current, then one with a sane slice, which under
MLFQ is the slice of the level it is taken from. -/
def SaneDispatch (t t' : State) : Prop :=
  ∀ x, t.current ≠ some x → t'.current = some x → SaneSlice t.config (t'.pcb x).timeSlice ∧
    (t.config.type = .mlfq → ∀ i, t.firstLevel = some i → (t'.pcb x).timeSlice = 10 * 2 ^ i.val)

/-- Processes are created with these priorities only. -/
def CreatesWith (allowed : UInt8 → Prop) (_ : State) : Op → Prop
  | .create _ priority => allowed priority
  | _ => True

/-- All dispatches in all runs are sane. -/
def SaneRuns (config : Config) (allowed : UInt8 → Prop) : Prop :=
  ∀ s op t t', Reaches Step (CreatesWith allowed) (schedulerInit config) s →
    CreatesWith allowed s op → s.entry op = some t → schedule t = some t' → SaneDispatch t t'

/-- The priority, cut off at the lowest level, is on one of the first `L` levels. -/
def Fits (L : Nat) (priority : UInt8) : Prop := min priority.toNat 3 < L

/-- The priorities for which the slices are sane. -/
def Config.Suits (config : Config) (priority : UInt8) : Prop :=
  if config.type = .mlfq then Fits config.mlfqLevels.toNat priority
  else priority.toNat < 4 ∨ 4 < priority.toNat ∧
    2 ^ 32 - 10 * (priority.toNat - 4) ≤ config.timeQuantum.toNat

/-! ## The formulas -/

theorem createdSlice_toNat (priority : UInt8) : (createdSlice priority).toNat =
    if priority.toNat ≤ 4 then 10 * (4 - priority.toNat)
    else 2 ^ 32 - 10 * (priority.toNat - 4) := by
  have hlt := priority.toNat_lt
  unfold createdSlice TIME_SLICE_BASE
  rw [UInt32.toNat_mul, UInt32.toNat_sub, UInt8.toNat_toUInt32]
  simp only [UInt32.reduceToNat]
  split <;> omega

theorem one_le_iff (u : UInt32) : 1 ≤ u ↔ 1 ≤ u.toNat := by
  rw [UInt32.le_iff_toNat_le]
  rfl

/-- The slice of a new process is sane exactly for the suitable priorities. -/
theorem createdSlice_sane_iff (ht : config.type ≠ .mlfq) (priority : UInt8) :
    SaneSlice config (createdSlice priority) ↔ config.Suits priority := by
  have hlt := priority.toNat_lt
  unfold SaneSlice Config.Suits
  rw [if_neg ht, one_le_iff, createdSlice_toNat]
  split <;> omega

/-- The slice of the level `i`. -/
def Config.levelSlice (config : Config) (i : Fin MAX_PRIORITY_LEVELS) : UInt32 :=
  if i.val < config.mlfqLevels.toNat then 10 * 2 ^ i.val else 0

theorem timeSlices_init (ht : config.type = .mlfq) (i : Fin MAX_PRIORITY_LEVELS) :
    (schedulerInit config).timeSlices i = config.levelSlice i := by
  have hi : i.val < MAX_PRIORITY_LEVELS := i.isLt
  unfold schedulerInit Config.levelSlice TIME_SLICE_BASE
  simp [ht, hi]

theorem levelSlice_bounds : ∀ i : Fin MAX_PRIORITY_LEVELS,
    1 ≤ (10 * 2 ^ i.val : UInt32).toNat ∧ (10 * 2 ^ i.val : UInt32).toNat ≤ 80
  | 0 | 1 | 2 | 3 => by decide

/-- A level with a slice has a sane one. -/
theorem levelSlice_sane {i : Fin MAX_PRIORITY_LEVELS} (hi : i.val < config.mlfqLevels.toNat) :
    SaneSlice config (config.levelSlice i) ∧ config.levelSlice i = 10 * 2 ^ i.val := by
  have hslice : config.levelSlice i = 10 * 2 ^ i.val := if_pos hi
  obtain ⟨hone, hle⟩ := levelSlice_bounds i
  refine ⟨⟨?_, ?_⟩, hslice⟩
  · rw [hslice, one_le_iff]
    exact hone
  · rw [hslice]
    exact hle.trans (le_max_left _ _)

/-! ## Levels without a slice -/

/-- The levels from `L` on are empty. -/
def Links.NoneFrom (L : Nat) (l : Links) : Prop :=
  ∀ i : Fin MAX_PRIORITY_LEVELS, L ≤ i.val → (l.queue (.level i)).count = 0

/-- `k` is not one of the levels from `L` on. -/
def QueueId.Under (L : Nat) (k : QueueId) : Prop := ∀ i, k = .level i → i.val < L

theorem under_home (hp : Fits L (s.pcb p).priority) : (s.homeQueue p).Under L := by
  intro i hi
  unfold State.homeQueue at hi
  split at hi
  · cases hi
    exact hp
  · cases hi

/-- Adding to a queue under `L` does not fill a level from `L` on. -/
theorem Links.NoneFrom.added (h : l.NoneFrom L) (hk : k.Under L) (ha : Added l l' k) :
    l'.NoneFrom L := by
  intro i hi
  have hne : QueueId.level i ≠ k := fun he => absurd (hk i he.symm) (Nat.not_lt.mpr hi)
  rw [ha, if_neg hne]
  exact h i hi

theorem Links.NoneFrom.taken (h : l.NoneFrom L) (hk : k.Under L) (ht : Taken l l' k) :
    l'.NoneFrom L := by
  intro i hi
  have hne : QueueId.level i ≠ k := fun he => absurd (hk i he.symm) (Nat.not_lt.mpr hi)
  rw [ht, if_neg hne]
  exact h i hi

theorem Links.NoneFrom.unlink (h : l.NoneFrom L) (k : QueueId) (p : Slot) :
    (l.unlink k p).NoneFrom L := by
  intro i hi
  rw [unlink_count l k p]
  split
  · rw [h i hi]
    rfl
  · exact h i hi

theorem addToReadyQueue_noneFrom (h : s.links.NoneFrom L) (hp : Fits L (s.pcb p).priority)
    (ha : addToReadyQueue s p = some s') : s'.links.NoneFrom L := by
  obtain ⟨l, hl, rfl⟩ := addToReadyQueue_effect ha
  exact h.added (under_home hp) (enqueue_count hl)

theorem removeFromReadyQueue_noneFrom (h : s.links.NoneFrom L) (p : Slot) :
    (removeFromReadyQueue s p).links.NoneFrom L := by
  unfold removeFromReadyQueue
  split
  · exact h
  · exact h.unlink _ _

theorem switchTo_noneFrom (h : s.links.NoneFrom L) (x : Slot) : (switchTo s x).links.NoneFrom L :=
  removeFromReadyQueue_noneFrom (s := { s with
    current := some x
    pcb := update s.pcb x { s.pcb x with
      state := .running, timeStarted := s.systemTicks, timeSliceUsed := 0 } }) h x

theorem readd_noneFrom (h : s.links.NoneFrom L) (hc : Fits L (s.pcb c).priority)
    (ha : addToReadyQueue (s.setState c .ready) c = some s') : s'.links.NoneFrom L := by
  refine addToReadyQueue_noneFrom (s := s.setState c .ready) h ?_ ha
  rwa [(setState_procs s c .ready).priority]

/-- A level with a count is one of the first `L`. -/
theorem Links.NoneFrom.lt {i : Fin MAX_PRIORITY_LEVELS} (h : l.NoneFrom L)
    (hi : (l.queue (.level i)).count ≠ 0) : i.val < L := by
  by_contra hge
  exact hi (h i (Nat.not_lt.mp hge))

theorem firstLevel_lt {i : Fin MAX_PRIORITY_LEVELS} (h : s.links.NoneFrom L)
    (hi : s.firstLevel = some i) : i.val < L := by
  have hpos : (s.links.queue (.level i)).count > 0 := by simpa using List.find?_some hi
  exact h.lt ((count_pos_iff _).mp hpos)

theorem mlfqSchedule_noneFrom (h : s.links.NoneFrom L) (hs : mlfqSchedule s = some (s₁, o)) :
    s₁.links.NoneFrom L := by
  rcases mlfqSchedule_parts hs with ⟨-, -, rfl⟩ | ⟨i, l, p, hi, hd, -, rfl⟩
  · exact h
  · refine h.taken (fun j hj => ?_) (dequeue_count hd)
    cases hj
    exact firstLevel_lt h hi

/-- Under MLFQ a dispatch adds the current process only. -/
theorem schedule_noneFrom (ht : s.config.type = .mlfq) (h : s.links.NoneFrom L)
    (hcur : ∀ c ∈ s.current, Fits L (s.pcb c).priority) (hs : schedule s = some s') :
    s'.links.NoneFrom L := by
  obtain ⟨s₁, hsel, hst, hs⟩ := schedule_parts hs
  unfold selectNext at hsel
  rw [ht] at hsel
  have h1 : s₁.links.NoneFrom L := mlfqSchedule_noneFrom h hsel
  obtain ⟨-, rfl⟩ | ⟨x, -, -, ⟨-, rfl⟩ | ⟨c, s₂, hc, ha, rfl⟩⟩ := hs
  · exact h1
  · exact switchTo_noneFrom h1 x
  · refine switchTo_noneFrom (readd_noneFrom h1 ?_ ha) x
    rw [hst.priority]
    exact hcur c hc

/-- A round of the boost at a level with a slice: the process moves to level 0. -/
theorem boostOne_noneFrom {j : Fin MAX_PRIORITY_LEVELS} (hj : j.val < L) (h : s.links.NoneFrom L)
    (hb : boostOne s j = some s') : s'.links.NoneFrom L ∧
      ∀ p, Fits L (s.pcb p).priority → Fits L (s'.pcb p).priority := by
  obtain ⟨p, l, l', hd, ha, rfl⟩ := boostOne_cases hb
  have hpos : 0 < L := Nat.lt_of_le_of_lt (Nat.zero_le _) hj
  have h1 : l.NoneFrom L := h.taken (fun i hi => by cases hi; exact hj) (dequeue_count hd)
  refine ⟨h1.added (fun i hi => by cases hi; exact hpos) (append_count ha), fun y hy => ?_⟩
  by_cases hyp : y = p
  · subst hyp
    simpa [Fits] using hpos
  · simpa [hyp] using hy

theorem boostLevel_noneFrom {j : Fin MAX_PRIORITY_LEVELS} {n : Nat} (hj : n ≠ 0 → j.val < L)
    (h : s.links.NoneFrom L) (hb : boostLevel j n s = some s') : s'.links.NoneFrom L ∧
      ∀ p, Fits L (s.pcb p).priority → Fits L (s'.pcb p).priority := by
  induction n generalizing s with
  | zero =>
    cases hb
    exact ⟨h, fun _ hp => hp⟩
  | succ n ih =>
    obtain ⟨s₁, hb1, hb2⟩ := Option.bind_eq_some_iff.mp hb
    have hlt : j.val < L := hj (Nat.succ_ne_zero n)
    obtain ⟨h1, hf1⟩ := boostOne_noneFrom hlt h hb1
    obtain ⟨h2, hf2⟩ := ih (fun _ => hlt) h1 hb2
    exact ⟨h2, fun p hp => hf2 p (hf1 p hp)⟩

/-- The rounds at level `j` are as many as its count says. -/
theorem boostCount_noneFrom {j : Fin MAX_PRIORITY_LEVELS} (h : s.links.NoneFrom L)
    (hb : boostLevel j (s.links.queue (.level j)).count.toNat s = some s') :
    s'.links.NoneFrom L ∧ ∀ p, Fits L (s.pcb p).priority → Fits L (s'.pcb p).priority := by
  refine boostLevel_noneFrom (fun hn => h.lt fun h0 => hn ?_) h hb
  rw [h0]
  rfl

theorem boostPriority_noneFrom (h : s.links.NoneFrom L) (hb : boostPriority s = some s') :
    s'.links.NoneFrom L ∧ ∀ p, Fits L (s.pcb p).priority → Fits L (s'.pcb p).priority := by
  unfold boostPriority at hb
  obtain ⟨s₁, hb1, hb⟩ := Option.bind_eq_some_iff.mp hb
  obtain ⟨s₂, hb2, hb3⟩ := Option.bind_eq_some_iff.mp hb
  obtain ⟨h1, hf1⟩ := boostCount_noneFrom h hb1
  obtain ⟨h2, hf2⟩ := boostCount_noneFrom h1 hb2
  obtain ⟨h3, hf3⟩ := boostCount_noneFrom h2 hb3
  exact ⟨h3, fun p hp => hf3 p (hf2 p (hf1 p hp))⟩

/-! ## Runs -/

/-- The PCB may be dispatched: under MLFQ from a level with a slice. -/
def SliceOk (config : Config) (q : Pcb) : Prop :=
  if config.type = .mlfq then Fits config.mlfqLevels.toNat q.priority
  else SaneSlice config q.timeSlice

/-- **What holds along a run** whose creations use suitable priorities: every process that the
queues and links name may be dispatched. -/
structure Sliced (config : Config) (s : State) : Prop where
  policy : s.config = config
  table : s.timeSlices = (schedulerInit config).timeSlices
  names : Names (fun p => SliceOk config (s.pcb p)) s
  levels : config.type = .mlfq → s.links.NoneFrom config.mlfqLevels.toNat

theorem Sliced.init (config : Config) : Sliced config (schedulerInit config) where
  policy := rfl
  table := rfl
  names := ⟨⟨nofun, nofun, nofun, nofun⟩, nofun⟩
  levels _ _ _ := rfl

theorem Names.mono {P Q : Slot → Prop} (h : Names P s) (hPQ : ∀ p, P p → Q p) : Names Q s :=
  ⟨h.links.mono hPQ, fun c hc => hPQ c (h.current c hc)⟩

theorem Names.pick {P : Slot → Prop} (h : Names P s) (hx : s.pick = some x) : P x := by
  obtain ⟨k, -, hk⟩ := Option.bind_eq_some_iff.mp hx
  exact h.links.head k x hk

theorem Sliced.current_fits (h : Sliced config s) (ht : config.type = .mlfq) :
    ∀ c ∈ s.current, Fits config.mlfqLevels.toNat (s.pcb c).priority := fun c hc => by
  have hok := h.names.current c hc
  unfold SliceOk at hok
  rwa [if_pos ht] at hok

/-- A call that names no slot anew, and leaves slices and suitable priorities alone. -/
theorem Sliced.quiet (h : Sliced config s) (hq : Quiet (fun p => SliceOk config (s.pcb p)) s s')
    (hs : SliceStep s s') (hl : config.type = .mlfq →
      s'.links.NoneFrom config.mlfqLevels.toNat ∧ ∀ p, Fits config.mlfqLevels.toNat
        (s.pcb p).priority → Fits config.mlfqLevels.toNat (s'.pcb p).priority) :
    Sliced config s' where
  policy := hs.config.trans h.policy
  table := hs.table.trans h.table
  names := by
    refine hq.names.mono fun p hp => ?_
    unfold SliceOk at hp ⊢
    split
    · rename_i ht
      rw [if_pos ht] at hp
      exact (hl ht).2 p hp
    · rename_i ht
      rw [if_neg ht] at hp
      rwa [hs.slice (by rwa [h.policy])]
  levels ht := (hl ht).1

theorem Sliced.schedule (h : Sliced config s) (hs : schedule s = some s') : Sliced config s' := by
  have hp := (schedule_effect hs).1
  refine h.quiet (schedule_quiet h.names hs) (schedule_slices hs) fun ht => ⟨?_, fun p hf => ?_⟩
  · exact schedule_noneFrom (by rwa [h.policy]) (h.levels ht) (h.current_fits ht) hs
  · rwa [hp.priority]

/-- The current process is added back before the dispatch. -/
theorem Sliced.readied (h : Sliced config s) (ht : s.readied = some t) : Sliced config t := by
  unfold State.readied at ht
  split at ht
  · cases ht
    exact h
  · rename_i c hc
    have hst := (readd_effect ht).1
    have hp := (setState_procs s c .ready).trans hst.toSameProcs
    refine h.quiet (readd_quiet h.names hc ht) (readd_slices ht).toSliceStep fun hm => ⟨?_, ?_⟩
    · exact readd_noneFrom (h.levels hm) (h.current_fits hm c hc) ht
    · intro p hf
      rwa [hp.priority]

theorem Sliced.yield (h : Sliced config s) (hy : yield s = some s') : Sliced config s' := by
  rw [yield_eq] at hy
  obtain ⟨t, ht, hs⟩ := Option.bind_eq_some_iff.mp hy
  exact (h.readied ht).schedule hs

theorem Sliced.retire (h : Sliced config s) (i : Slot) : Sliced config (retire s i) := by
  have hst := (retire_effect s i).1
  have hp := (setState_procs s i .terminated).trans hst.toSameProcs
  have hl : ∀ {L}, s.links.NoneFrom L → (Scheduler.retire s i).links.NoneFrom L := fun hl => by
    rw [retire_links]
    split
    · exact hl
    · exact hl.unlink _ _
  have hsl := retire_slices s i
  refine ⟨hsl.config.trans h.policy, hsl.table.trans h.table, ?_, fun ht => hl (h.levels ht)⟩
  have hq : Quiet (fun p => SliceOk config (s.pcb p)) s (removeFromReadyQueue
      (s.setState i .terminated) i) := by
    have h1 : Quiet (fun p => SliceOk config (s.pcb p)) s (s.setState i .terminated) :=
      .pcb h.names rfl
    exact h1.trans (removeFromReadyQueue_quiet h1.names i)
  have hn : Names (fun p => SliceOk config (s.pcb p)) (Scheduler.retire s i) :=
    ⟨hq.names.links, hq.names.current⟩
  refine hn.mono fun p hok => ?_
  unfold SliceOk at hok ⊢
  split
  · rename_i ht
    rw [if_pos ht] at hok
    rwa [hp.priority]
  · rename_i ht
    rw [if_neg ht] at hok
    rwa [hsl.slice (by rwa [h.policy])]

/-- Without a current process. -/
theorem Sliced.vacate (h : Sliced config s) : Sliced config { s with current := none } :=
  ⟨h.policy, h.table, ⟨h.names.links, nofun⟩, h.levels⟩

theorem Sliced.charged (h : Sliced config s) (c : Slot) : Sliced config (s.charged c) := by
  have hpcb : ∀ p, SliceOk config (s.pcb p) → SliceOk config ((s.charged c).pcb p) := by
    intro p hp
    by_cases hpc : p = c
    · subst hpc
      simpa [State.charged, charge, SliceOk] using hp
    · simpa [State.charged, charge, hpc] using hp
  have hn : Names (fun p => SliceOk config (s.pcb p)) (s.charged c) :=
    ⟨h.names.links, h.names.current⟩
  exact ⟨h.policy, h.table, hn.mono hpcb, h.levels⟩

/-- The end of a tick under MLFQ. -/
theorem tickEnd_noneFrom (h : s.links.NoneFrom L)
    (he : (if s.config.type = .mlfq then tickMlfq s else some s) = some s') :
    s'.links.NoneFrom L ∧ ∀ p, Fits L (s.pcb p).priority → Fits L (s'.pcb p).priority := by
  obtain ⟨-, rfl⟩ | ⟨-, d, hend⟩ := tickEnd_parts he
  · exact ⟨h, fun _ hp => hp⟩
  · have hst : SameTable s (s.aged d) := .pcb rfl rfl rfl
    have hpcb : ∀ p, Fits L (s.pcb p).priority → Fits L ((s.aged d).pcb p).priority :=
      fun p hp => (hst.priority p).symm ▸ hp
    rcases hend with ⟨-, rfl⟩ | ⟨-, t, hb, rfl⟩
    · exact ⟨h, hpcb⟩
    · have h1 : (s.aged d).links.NoneFrom L := h
      obtain ⟨h2, hf2⟩ := boostPriority_noneFrom h1 hb
      exact ⟨h2, fun p hp => hf2 p (hpcb p hp)⟩

theorem Sliced.tickEnd (h : Sliced config s)
    (he : (if s.config.type = .mlfq then tickMlfq s else some s) = some s') : Sliced config s' :=
  h.quiet (tickEnd_quiet h.names he) (tickEnd_slices he).toSliceStep
    fun ht => tickEnd_noneFrom (h.levels ht) he

theorem Sliced.tick (h : Sliced config s) (ht : tick s = some s') : Sliced config s' := by
  rcases tick_parts ht with ⟨-, rfl⟩ | ⟨c, s₁, -, hsl, hend⟩
  · exact ⟨h.policy, h.table, ⟨h.names.links, h.names.current⟩, h.levels⟩
  · have hch : Sliced config (s.charged c) := h.charged c
    rcases hsl with ⟨-, hy⟩ | ⟨-, rfl⟩
    · exact (hch.yield hy).tickEnd hend
    · exact hch.tickEnd hend

/-- A creation names one slot more, whose process may be dispatched. -/
theorem Sliced.create {name : List UInt8} {priority : UInt8} (h : Sliced config s)
    (hp : config.Suits priority) (hc : createProcess s name priority = some (s', o)) :
    Sliced config s' := by
  rcases create_slot hc with ⟨-, rfl⟩ | ⟨p, q, -, hq, ha⟩
  · exact h
  · have hok : SliceOk config q := by
      unfold SliceOk
      unfold Config.Suits at hp
      split
      · rename_i ht
        rw [if_pos ht] at hp
        rwa [hq.priority]
      · rename_i ht
        have hslice : q.timeSlice = createdSlice priority := hq.slice
        rw [hslice, createdSlice_sane_iff ht]
        unfold Config.Suits
        exact hp
    have hpcb : ∀ y, SliceOk config (s.pcb y) → SliceOk config (update s.pcb p q y) := by
      intro y hy
      by_cases hyp : y = p
      · subst hyp
        simpa using hok
      · simpa [hyp] using hy
    obtain ⟨l, hl, rfl⟩ := addToReadyQueue_effect ha
    have hself : SliceOk config (update s.pcb p q p) := by simpa using hok
    refine ⟨h.policy, h.table, ⟨(h.names.links.mono hpcb).enqueue hself hl, fun c hc => ?_⟩, ?_⟩
    · exact hpcb c (h.names.current c hc)
    · intro ht
      refine (h.levels ht).added (under_home ?_) (enqueue_count hl)
      unfold SliceOk at hself
      rwa [if_pos ht] at hself

/-- **The step.** -/
theorem step_sliced (hsuits : ∀ p, allowed p → config.Suits p) (h : Sliced config s)
    (hok : CreatesWith allowed s op) (hs : Step s op s') : Sliced config s' := by
  cases op with
  | create name priority =>
    obtain ⟨⟨s₁, o⟩, hc, rfl⟩ := Option.map_eq_some_iff.mp hs
    exact h.create (hsuits priority hok) hc
  | terminate pid =>
    rcases terminate_cases hs with ⟨-, rfl⟩ | ⟨i, -, ⟨-, -, -, hsch⟩ | ⟨-, rfl⟩⟩
    · exact h
    · exact (h.retire i).vacate.schedule hsch
    · exact h.retire i
  | yield => exact h.yield hs
  | tick => exact h.tick hs
  | schedule => exact h.schedule hs

/-- The state in which a call enters `scheduler_schedule`. -/
theorem Sliced.entry (h : Sliced config s) (he : s.entry op = some t) : Sliced config t := by
  cases op with
  | create name priority => cases he
  | terminate pid =>
    obtain ⟨i, -, he⟩ := Option.bind_eq_some_iff.mp he
    split at he
    · cases he
      exact (h.retire i).vacate
    · cases he
  | yield => exact h.readied he
  | tick =>
    obtain ⟨c, -, he⟩ := Option.bind_eq_some_iff.mp he
    split at he
    · exact (h.charged c).readied he
    · cases he
  | schedule =>
    cases he
    exact h

/-- **Where the slices are kept, a dispatch is sane.** -/
theorem dispatch_sane (h : Sliced config t) (hs : schedule t = some t') : SaneDispatch t t' := by
  intro x hne hx
  rcases schedule_slice_cases hs with ⟨hcur, -⟩ | ⟨y, u, hy, -, hsl, rfl, hlevel⟩
  · exact absurd (hcur.symm.trans hx) hne
  · obtain ⟨-, hcur, -⟩ := switchTo_effect u y
    obtain rfl : y = x := Option.some.inj (hcur.symm.trans hx)
    obtain ⟨-, -, hslice, -⟩ := switchTo_slices u y
    rw [hslice, h.policy]
    by_cases ht : config.type = .mlfq
    · have ht' : t.config.type = .mlfq := by rwa [h.policy]
      have hfirst : ∀ i, t.firstLevel = some i → SaneSlice config (u.pcb y).timeSlice ∧
          (u.pcb y).timeSlice = 10 * 2 ^ i.val := by
        intro i hi
        rw [hlevel ht' i hi, h.table, timeSlices_init ht]
        exact levelSlice_sane (firstLevel_lt (h.levels ht) hi)
      refine ⟨?_, fun _ i hi => (hfirst i hi).2⟩
      have hpick := hy
      unfold State.pick at hpick
      rw [pickQueue_mlfq ht'] at hpick
      obtain ⟨k, hk, -⟩ := Option.bind_eq_some_iff.mp hpick
      obtain ⟨i, hi, -⟩ := Option.map_eq_some_iff.mp hk
      exact (hfirst i hi).1
    · refine ⟨?_, fun hm => absurd hm ht⟩
      have hok := h.names.pick hy
      unfold SliceOk at hok
      rw [if_neg ht] at hok
      rwa [hsl.slice (by rwa [h.policy])]

/-! ## A run for every priority -/

/-- Right after `scheduler_init` and one creation. -/
structure First (config : Config) (priority : UInt8) (s : State) : Prop where
  policy : s.config = config
  table : s.timeSlices = (schedulerInit config).timeSlices
  current : s.current = none
  prio : (s.pcb 0).priority = priority
  slice : (s.pcb 0).timeSlice = createdSlice priority
  queue : s.links.queue = update (fun _ => ⟨none, none, 0⟩) (s.homeQueue 0) ⟨some 0, some 0, 1⟩

theorem create_first (config : Config) (priority : UInt8) :
    ∃ s, step (schedulerInit config) (.create [] priority) = some s ∧ First config priority s := by
  have hfree : findFreePcb (schedulerInit config) = some 0 := rfl
  obtain ⟨r, hr⟩ : ∃ r, createProcess (schedulerInit config) [] priority = some r := by
    unfold createProcess
    rw [hfree]
    exact ⟨_, rfl⟩
  obtain ⟨s, o⟩ := r
  refine ⟨s, by rw [step, hr]; rfl, ?_⟩
  rcases create_slot hr with ⟨hno, -⟩ | ⟨p, q, hp, hq, ha⟩
  · cases hno
  · obtain rfl : (0 : Slot) = p := Option.some.inj (hfree.symm.trans hp)
    obtain ⟨l, hl, rfl⟩ := addToReadyQueue_effect ha
    have hslice : q.timeSlice = createdSlice priority := hq.slice
    refine ⟨rfl, rfl, rfl, ?_, ?_, (enqueue_eq hl).1⟩
    · simpa using hq.priority
    · simpa using hslice

/-- The queue of the new process is the only one with a count. -/
theorem First.pickQueue {priority : UInt8} (h : First config priority s) :
    s.pickQueue = some (s.homeQueue 0) := by
  have hcount : ∀ k, (s.links.queue k).count > 0 ↔ k = s.homeQueue 0 := fun k => by
    rw [h.queue, count_pos_iff]
    by_cases hk : k = s.homeQueue 0
    · subst hk
      simp
    · simp [hk]
  cases hq : s.pickQueue with
  | none =>
    have hno := List.find?_eq_none.mp hq _ (homeQueue_mem_scan s 0)
    simp [hcount] at hno
  | some k =>
    have hk : (s.links.queue k).count > 0 := by
      unfold State.pickQueue at hq
      simpa using List.find?_some hq
    rw [(hcount k).mp hk]

/-- With no current process, a queue of one process is no obstacle. -/
theorem First.schedule {priority : UInt8} (h : First config priority s) :
    ∃ s', schedule s = some s' ∧ s'.current = some 0 := by
  have hd : ∃ l, s.links.dequeue (s.homeQueue 0) = some (l, some 0) := by
    unfold Links.dequeue
    simp [h.queue]
  obtain ⟨l, hd⟩ := hd
  have hsel : ∃ s₁, selectNext s = some (s₁, some 0) := by
    by_cases ht : s.config.type = .mlfq
    · have hq := h.pickQueue
      rw [pickQueue_mlfq ht] at hq
      obtain ⟨i, hi, hk⟩ := Option.map_eq_some_iff.mp hq
      rw [← hk] at hd
      unfold selectNext mlfqSchedule
      rw [ht]
      simp [hi, hd]
    · have h0 : (s.links.queue .ready).count ≠ 0 := by
        rw [h.queue, homeQueue_single ht]
        simp
      rw [homeQueue_single ht] at hd
      have hf := fifoSchedule_some hd h0
      unfold selectNext
      split
      · exact ⟨_, hf⟩
      · unfold rrSchedule
        simp [hf, h.current]
      · exact absurd ‹_› ht
      · exact ⟨_, hf⟩
  obtain ⟨s₁, hsel⟩ := hsel
  have hcur : s₁.current = none := (selectNext_effect hsel).2.current.trans h.current
  refine ⟨switchTo s₁ 0, ?_, (switchTo_effect s₁ 0).2.1⟩
  unfold Scheduler.schedule
  simp [hsel, hcur]

/-- **The first dispatch**: the slice is the one of the level, or the one of the creation. -/
theorem first_dispatch (config : Config) (priority : UInt8) :
    ∃ s s', step (schedulerInit config) (.create [] priority) = some s ∧ schedule s = some s' ∧
      (SaneDispatch s s' → config.Suits priority) := by
  obtain ⟨s, hs, hf⟩ := create_first config priority
  obtain ⟨s', hs', hcur⟩ := hf.schedule
  refine ⟨s, s', hs, hs', fun hsane => ?_⟩
  obtain ⟨hsane, hslice⟩ := hsane 0 (by simp [hf.current]) hcur
  rcases schedule_slice_cases hs' with ⟨hno, -⟩ | ⟨x, u, -, -, hsl, rfl, hlevel⟩
  · cases (hno.symm.trans hcur).symm.trans hf.current
  · obtain rfl : x = 0 := Option.some.inj ((switchTo_effect u x).2.1.symm.trans hcur)
    obtain ⟨-, -, hsw, -⟩ := switchTo_slices u 0
    rw [hsw, hf.policy] at hsane
    by_cases ht : config.type = .mlfq
    · have ht' : s.config.type = .mlfq := by rwa [hf.policy]
      have hq := hf.pickQueue
      rw [pickQueue_mlfq ht'] at hq
      obtain ⟨i, hi, hk⟩ := Option.map_eq_some_iff.mp hq
      rw [hlevel ht' i hi, hf.table, timeSlices_init ht] at hsane
      have hlt : i.val < config.mlfqLevels.toNat := by
        by_contra hge
        unfold Config.levelSlice at hsane
        rw [if_neg hge] at hsane
        exact absurd hsane.1 (by decide)
      unfold Config.Suits Fits
      rw [if_pos ht]
      unfold State.homeQueue at hk
      rw [if_pos ht'] at hk
      cases hk
      rwa [← hf.prio]
    · rw [hsl.slice (by rwa [hf.policy]), hf.slice] at hsane
      exact (createdSlice_sane_iff ht priority).mp hsane

/-! ## The property -/

/-- **The slices of all dispatches are sane exactly if** the priorities of the creations suit the
configuration. -/
theorem sane_iff_suits (config : Config) (allowed : UInt8 → Prop) :
    SaneRuns config allowed ↔ ∀ priority, allowed priority → config.Suits priority := by
  constructor
  · intro hsane priority hp
    obtain ⟨s, s', hs, hs', himp⟩ := first_dispatch config priority
    refine himp (hsane s .schedule s s' (.step .refl ?_ hs) trivial rfl hs')
    exact hp
  · intro hsuits s op t t' hrun _ he hs
    have hsl : Sliced config s := hrun.invariant (.init config) fun _ _ _ hi hok hR =>
      step_sliced hsuits hi hok hR
    exact dispatch_sane (hsl.entry he) hs

/-- A process of priority 4 is dispatched with the slice 0. -/
theorem slice_not_sane : ¬ ∀ config : Config, 1 ≤ config.timeQuantum →
    SaneRuns config fun _ => True := by
  intro hall
  obtain ⟨s, s', hs, hs', himp⟩ := first_dispatch ⟨.rr, 10, 1, 0, 0⟩ 4
  have hrun : Reaches Step (CreatesWith fun _ => True) (schedulerInit ⟨.rr, 10, 1, 0, 0⟩) s :=
    .step (a := .create [] 4) .refl trivial hs
  have hsuits := himp (hall _ (by decide) s .schedule s s' hrun trivial rfl hs')
  exact absurd hsuits (by simp [Config.Suits])

end OSCompas.Scheduler
