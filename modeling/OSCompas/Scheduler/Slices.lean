import OSCompas.Scheduler.Time

/-!
# Who writes time slices

A process gets `time_slice` from `scheduler_rr_init`, from `scheduler_create_process` and, under
MLFQ, from `scheduler_mlfq_schedule`; `time_slice_used` grows at a tick and is cleared by the
context switch.

* `SameSlices` — the slices a policy was set up with stay, and but for MLFQ so do those of the
  processes;
* `State.entry` — the state in which a call enters `scheduler_schedule`.

Principal results: `schedule_slice_cases` (what a dispatch does to the slices), `yield_slices` and
`tick_slices`.
-/

set_option autoImplicit false

namespace OSCompas.Scheduler

open Function

variable {s s' s₁ t : State} {p x c i : Slot} {o : Option Slot} {op : Op}

/-! ## The frame -/

/-- No slice changes, but for the one that MLFQ writes when it picks a process. -/
structure SameSlices (s s' : State) : Prop where
  config : s'.config = s.config
  table : s'.timeSlices = s.timeSlices
  slice : s.config.type ≠ .mlfq → ∀ p, (s'.pcb p).timeSlice = (s.pcb p).timeSlice
  used : ∀ p, (s'.pcb p).timeSliceUsed = (s.pcb p).timeSliceUsed

theorem SameSlices.refl (s : State) : SameSlices s s := ⟨rfl, rfl, fun _ _ => rfl, fun _ => rfl⟩

theorem SameSlices.trans {s'' : State} (h : SameSlices s s') (h' : SameSlices s' s'') :
    SameSlices s s'' where
  config := h'.config.trans h.config
  table := h'.table.trans h.table
  slice ht p := (h'.slice (by rwa [h.config]) p).trans (h.slice ht p)
  used p := (h'.used p).trans (h.used p)

theorem SameSlices.links (s : State) (l : Links) : SameSlices s { s with links := l } :=
  ⟨rfl, rfl, fun _ _ => rfl, fun _ => rfl⟩

/-- A PCB is replaced by one with the same slice. -/
theorem SameSlices.pcb {q : Pcb}
    (hslice : s.config.type ≠ .mlfq → q.timeSlice = (s.pcb p).timeSlice)
    (hused : q.timeSliceUsed = (s.pcb p).timeSliceUsed) :
    SameSlices s { s with pcb := update s.pcb p q } := by
  refine ⟨rfl, rfl, fun ht y => ?_, fun y => ?_⟩
  · by_cases hy : y = p
    · subst hy
      simp [hslice ht]
    · simp [hy]
  · by_cases hy : y = p
    · subst hy
      simp [hused]
    · simp [hy]

theorem setState_slices (s : State) (p : Slot) (st : ProcessState) :
    SameSlices s (s.setState p st) :=
  .pcb (fun _ => rfl) rfl

theorem addToReadyQueue_slices (h : addToReadyQueue s p = some s') : SameSlices s s' := by
  obtain ⟨l, -, rfl⟩ := addToReadyQueue_effect h
  exact .links s l

theorem readd_slices (h : addToReadyQueue (s.setState c .ready) c = some s') : SameSlices s s' :=
  (setState_slices s c .ready).trans (addToReadyQueue_slices h)

theorem removeFromReadyQueue_slices (s : State) (p : Slot) :
    SameSlices s (removeFromReadyQueue s p) := by
  rw [removeFromReadyQueue_effect]
  exact .links s _

/-! ## `scheduler_schedule` -/

theorem fifoSchedule_slices (h : fifoSchedule s = some (s₁, o)) : SameSlices s s₁ := by
  rcases fifoSchedule_parts h with ⟨-, -, rfl⟩ | ⟨-, l, -, rfl⟩
  · exact .refl s₁
  · exact .links s l

theorem rrSchedule_slices (h : rrSchedule s = some (s₁, o)) : SameSlices s s₁ := by
  obtain ⟨s₂, hf, ⟨rfl, -⟩ | ⟨x, c, -, -, -, ha⟩⟩ := rrSchedule_parts h
  · exact fifoSchedule_slices hf
  · exact (fifoSchedule_slices hf).trans (addToReadyQueue_slices ha)

/-- The process taken off a level gets the slice of that level. -/
theorem mlfqSchedule_slices (ht : s.config.type = .mlfq) (h : mlfqSchedule s = some (s₁, o)) :
    SameSlices s s₁ ∧ ∀ j, s.firstLevel = some j → ∀ x ∈ o,
      (s₁.pcb x).timeSlice = s.timeSlices j := by
  rcases mlfqSchedule_parts h with ⟨-, rfl, rfl⟩ | ⟨j, l, p, hj, -, rfl, rfl⟩
  · exact ⟨.refl s₁, fun _ _ _ hx => nomatch hx⟩
  · refine ⟨(SameSlices.links s l).trans (.pcb (fun hn => absurd ht hn) rfl), ?_⟩
    intro j' hj' x hx
    obtain rfl := Option.some.inj (hj.symm.trans hj')
    obtain rfl := Option.mem_some.mp hx
    simp

/-- What the choice does to the slices. -/
theorem selectNext_slices (h : selectNext s = some (s₁, o)) : SameSlices s s₁ ∧
    (s.config.type = .mlfq → ∀ j, s.firstLevel = some j → ∀ x ∈ o,
      (s₁.pcb x).timeSlice = s.timeSlices j) := by
  unfold selectNext at h
  split at h
  · exact ⟨fifoSchedule_slices h, by simp_all⟩
  · exact ⟨rrSchedule_slices h, by simp_all⟩
  · rename_i ht
    obtain ⟨h1, h2⟩ := mlfqSchedule_slices ht h
    exact ⟨h1, fun _ => h2⟩
  · exact ⟨fifoSchedule_slices h, by simp_all⟩

/-- The context switch clears `time_slice_used` of the process it switches to. -/
theorem switchTo_slices (s : State) (x : Slot) : (switchTo s x).config = s.config ∧
    (switchTo s x).timeSlices = s.timeSlices ∧
    (∀ p, ((switchTo s x).pcb p).timeSlice = (s.pcb p).timeSlice) ∧
    ∀ p, ((switchTo s x).pcb p).timeSliceUsed = if p = x then 0 else (s.pcb p).timeSliceUsed := by
  unfold switchTo
  dsimp only
  rw [removeFromReadyQueue_effect]
  refine ⟨rfl, rfl, fun p => ?_, fun p => ?_⟩ <;>
  · by_cases hp : p = x
    · subst hp
      simp
    · simp [hp]

/-- **`scheduler_schedule`** leaves the slices alone, but for those of the process it switches
to. -/
theorem schedule_slice_cases (h : schedule s = some s') :
    (s'.current = s.current ∧ SameSlices s s') ∨
      ∃ x t, s.pick = some x ∧ s.current ≠ some x ∧ SameSlices s t ∧ s' = switchTo t x ∧
        (s.config.type = .mlfq → ∀ j, s.firstLevel = some j →
          (t.pcb x).timeSlice = s.timeSlices j) := by
  obtain ⟨s₁, hsel, hst, ⟨-, rfl⟩ | ⟨x, hx, hne, hs⟩⟩ := schedule_parts h
  · exact .inl ⟨hst.current, (selectNext_slices hsel).1⟩
  · obtain ⟨hsl, hlevel⟩ := selectNext_slices hsel
    rcases hs with ⟨-, rfl⟩ | ⟨c, s₂, -, ha, rfl⟩
    · exact .inr ⟨x, s₁, hx, hne, hsl, rfl, fun ht j hj => hlevel ht j hj x hx⟩
    · refine .inr ⟨x, s₂, hx, hne, hsl.trans (readd_slices ha), rfl, fun ht j hj => ?_⟩
      obtain ⟨l, -, rfl⟩ := addToReadyQueue_effect ha
      have hslice := hlevel ht j hj x hx
      by_cases hxc : x = c
      · subst hxc
        simp [State.setState, hslice]
      · simp [State.setState, hxc, hslice]

/-- What is left of it for the slices of processes. -/
structure SliceStep (s s' : State) : Prop where
  config : s'.config = s.config
  table : s'.timeSlices = s.timeSlices
  slice : s.config.type ≠ .mlfq → ∀ p, (s'.pcb p).timeSlice = (s.pcb p).timeSlice
  used : ∀ p, (s'.pcb p).timeSliceUsed = (s.pcb p).timeSliceUsed ∨
    s.current ≠ some p ∧ (s'.pcb p).timeSliceUsed = 0

theorem SameSlices.toSliceStep (h : SameSlices s s') : SliceStep s s' :=
  ⟨h.config, h.table, h.slice, fun p => .inl (h.used p)⟩

theorem SliceStep.trans_same (h : SliceStep s s') {s'' : State} (h' : SameSlices s' s'') :
    SliceStep s s'' where
  config := h'.config.trans h.config
  table := h'.table.trans h.table
  slice ht p := (h'.slice (by rwa [h.config]) p).trans (h.slice ht p)
  used p := by
    rw [h'.used p]
    exact h.used p

theorem SameSlices.trans_step (h : SameSlices s s') {s'' : State} (h' : SliceStep s' s'')
    (hc : s'.current = s.current) : SliceStep s s'' where
  config := h'.config.trans h.config
  table := h'.table.trans h.table
  slice ht p := (h'.slice (by rwa [h.config]) p).trans (h.slice ht p)
  used p := by
    rw [← h.used p, ← hc]
    exact h'.used p

theorem schedule_slices (h : schedule s = some s') : SliceStep s s' := by
  rcases schedule_slice_cases h with ⟨-, hsl⟩ | ⟨x, t, -, hne, hsl, rfl, -⟩
  · exact hsl.toSliceStep
  · obtain ⟨h1, h2, h3, h4⟩ := switchTo_slices t x
    refine ⟨h1.trans hsl.config, h2.trans hsl.table, fun ht p => ?_, fun p => ?_⟩
    · rw [h3, hsl.slice ht]
    · by_cases hp : p = x
      · exact .inr ⟨hp ▸ hne, by rw [h4, if_pos hp]⟩
      · exact .inl (by rw [h4, if_neg hp, hsl.used])

/-! ## The other calls -/

/-- The part of `scheduler_yield` before `scheduler_schedule`. -/
def State.readied (s : State) : Option State :=
  match s.current with
  | none => some s
  | some c => addToReadyQueue (s.setState c .ready) c

theorem yield_eq (s : State) : yield s = s.readied.bind schedule := by
  unfold yield State.readied
  cases s.current <;> rfl

theorem readied_slices (h : s.readied = some t) : SameSlices s t ∧ t.current = s.current := by
  unfold State.readied at h
  split at h
  · cases h
    exact ⟨.refl s, rfl⟩
  · exact ⟨readd_slices h, (readd_effect h).1.current⟩

theorem yield_slices (h : yield s = some s') : SliceStep s s' := by
  rw [yield_eq] at h
  obtain ⟨t, ht, h⟩ := Option.bind_eq_some_iff.mp h
  obtain ⟨h1, hc⟩ := readied_slices ht
  exact h1.trans_step (schedule_slices h) hc

theorem retire_slices (s : State) (i : Slot) : SameSlices s (retire s i) := by
  have h1 := (setState_slices s i .terminated).trans (removeFromReadyQueue_slices _ i)
  exact ⟨h1.config, h1.table, h1.slice, h1.used⟩

theorem boostOne_slices {j : Fin MAX_PRIORITY_LEVELS} (h : boostOne s j = some s') :
    SameSlices s s' := by
  obtain ⟨p, -, l', -, -, rfl⟩ := boostOne_cases h
  exact (SameSlices.links s l').trans (.pcb (fun _ => rfl) rfl)

theorem boostPriority_slices (h : boostPriority s = some s') : SameSlices s s' :=
  boostPriority_rel .refl (fun _ _ _ => .trans) (fun _ _ _ => boostOne_slices) h

/-- The end of a tick, under every policy. -/
theorem tickEnd_slices (h : (if s.config.type = .mlfq then tickMlfq s else some s) = some s') :
    SameSlices s s' := by
  obtain ⟨-, rfl⟩ | ⟨-, d, hend⟩ := tickEnd_parts h
  · exact .refl s'
  · have h1 : SameSlices s (s.aged d) := .pcb (fun _ => rfl) rfl
    rcases hend with ⟨-, rfl⟩ | ⟨-, t, hb, rfl⟩
    · exact h1
    · have h2 := h1.trans (boostPriority_slices hb)
      exact ⟨h2.config, h2.table, h2.slice, h2.used⟩

/-- After the charge, a tick does to the slices what its yield does. -/
theorem tick_slices (hc : s.current = some c) (h : tick s = some s') :
    SliceStep (s.charged c) s' := by
  rcases tick_parts h with ⟨hn, -⟩ | ⟨d, s₁, hd, hsl, hend⟩
  · cases hn.symm.trans hc
  · obtain rfl := Option.some.inj (hc.symm.trans hd)
    rcases hsl with ⟨-, hy⟩ | ⟨-, rfl⟩
    · exact (yield_slices hy).trans_same (tickEnd_slices hend)
    · exact (tickEnd_slices hend).toSliceStep

/-- The slice `scheduler_create_process` computes. -/
def createdSlice (priority : UInt8) : UInt32 := TIME_SLICE_BASE * (4 - priority.toUInt32)

/-! ## Where a call enters `scheduler_schedule` -/

/-- The state in which the call `op` enters `scheduler_schedule`, if it does. -/
def State.entry (s : State) : Op → Option State
  | .create _ _ => none
  | .terminate pid => (findProcess s pid).bind fun i =>
      if ∃ c ∈ s.current, (s.pcb c).pid = pid then some { retire s i with current := none }
      else none
  | .yield => s.readied
  | .tick => s.current.bind fun c => if s.expires c then (s.charged c).readied else none
  | .schedule => some s

end OSCompas.Scheduler
