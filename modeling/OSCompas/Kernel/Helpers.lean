import OSCompas.Kernel.Model

/-!
# Helpers that behave as documented

The functions that `pcb.h` declares, written down over lists: what the kernel scheduler assumes of
them (`Helpers.Documented`) can be met.

* `Helpers.Complete` — what is assumed on top of `Helpers.Documented` about other processes;
* `Helpers.Levels` — the level a process is queued at, for every byte;
* `Helpers.KeepsTimes` — what is assumed about the times of a process.

Principal results: `listHelpers_documented`, `listHelpers_complete`, `run_of_exec`.
-/

set_option autoImplicit false

namespace OSCompas.Kernel

open Function Runs

/-- The process at the front of the first level with one. -/
def Mlfq.pop (m : Mlfq) : Option Slot × Mlfq :=
  match m.firstLevel with
  | none => (none, m)
  | some i =>
    match m.queues i with
    | [] => (none, m)
    | x :: xs => (some x, { m with queues := update m.queues i xs })

/-- A level that does not exist counts as the last. -/
def lastLevel (level : UInt8) : Fin MAX_PRIORITY_LEVELS :=
  if h : level.toNat < MAX_PRIORITY_LEVELS then ⟨level.toNat, h⟩ else 3

/-- The helpers over lists. -/
def listHelpers : Helpers where
  calculateTimeSlice priority base := base * (priority.toUInt32 + 1)
  pcbInit _ pid _ _ priority := { Pcb.zero with pid := pid, priority := priority }
  pcbSetState q st := { q with state := st }
  pcbSetPriority q priority := { q with priority := priority }
  pcbAlloc t := ((List.finRange MAX_PROCESSES).find? fun p => t.allocated p = false).map fun p =>
    (p, { t with allocated := update t.allocated p true })
  pcbFree t p := { t with
    processes := update t.processes p Pcb.zero
    allocated := update t.allocated p false }
  processTableInit t := { t with allocated := fun _ => false, nextPid := 1 }
  processTableFind t pid := (List.finRange MAX_PROCESSES).find? fun p =>
    t.allocated p = true ∧ (t.processes p).pid = pid
  readyQueueInit _ := []
  readyQueueEnqueue l p := l ++ [p]
  readyQueueDequeue l := (l.head?, l.tail)
  readyQueueRemove l p := l.filter (· ≠ p)
  mlfqInit _ _ := ⟨fun _ => [], 5⟩
  mlfqEnqueue m p level := { m with
    queues := update m.queues (lastLevel level) (m.queues (lastLevel level) ++ [p]) }
  mlfqDequeue m := m.pop
  mlfqAdjustPriority m _ q _ :=
    (m, { q with queueLevel := if q.queueLevel < 3 then q.queueLevel + 1 else 3, timeInQueue := 0 })
  waitQueueInit := ⟨[], none, 0⟩
  waitQueueEnqueue w p := ⟨w.nodes ++ [p], some p, w.count + 1⟩
  waitQueueRemove w p :=
    ⟨w.nodes.filter (· ≠ p), (w.nodes.filter (· ≠ p)).getLast?, w.count - 1⟩

theorem Mlfq.firstLevel_some {m : Mlfq} {i : Fin MAX_PRIORITY_LEVELS} (h : m.firstLevel = some i) :
    m.queues i ≠ [] := by
  have hi := List.find?_some h
  simpa using hi

theorem Mlfq.firstLevel_least {m : Mlfq} {i j : Fin MAX_PRIORITY_LEVELS}
    (h : m.firstLevel = some i) (hj : j < i) : m.queues j = [] := by
  obtain ⟨-, n, hn, hi, hbefore⟩ := List.find?_eq_some_iff_getElem.mp h
  rw [List.getElem_finRange] at hi
  have hjn : j.val < n := by
    have hlt : j.val < i.val := hj
    rw [← hi] at hlt
    exact hlt
  have hno := hbefore j.val hjn
  rw [List.getElem_finRange] at hno
  simpa using hno

theorem Mlfq.firstLevel_isSome {m : Mlfq} {i : Fin MAX_PRIORITY_LEVELS} {x : Slot}
    (h : x ∈ m.queues i) : m.firstLevel ≠ none := by
  intro hnone
  have hno := List.find?_eq_none.mp hnone i (List.mem_finRange i)
  rw [decide_eq_true_eq, not_not] at hno
  rw [hno] at h
  exact absurd h List.not_mem_nil

theorem Mlfq.pop_spec (m : Mlfq) : (m.firstLevel = none ∧ m.pop = (none, m)) ∨
    ∃ i x xs, m.firstLevel = some i ∧ m.queues i = x :: xs ∧
      m.pop = (some x, { m with queues := update m.queues i xs }) := by
  unfold Mlfq.pop
  cases hi : m.firstLevel with
  | none => exact .inl ⟨rfl, rfl⟩
  | some i =>
    refine .inr ?_
    cases hq : m.queues i with
    | nil => exact absurd hq (Mlfq.firstLevel_some hi)
    | cons x xs => exact ⟨i, x, xs, rfl, hq, by simp [hq]⟩

theorem lastLevel_ofNat (i : Fin MAX_PRIORITY_LEVELS) : lastLevel (UInt8.ofNat i.val) = i := by
  have hi : i.val < 4 := i.isLt
  have hv : (UInt8.ofNat i.val).toNat = i.val := by
    rw [UInt8.toNat_ofNat']
    exact Nat.mod_eq_of_lt (by omega)
  unfold lastLevel
  rw [dif_pos (hv.symm ▸ hi)]
  exact Fin.ext hv

/-- What joins one of the queues was in it, or is the one that joins. -/
theorem mem_update_append {queues : Fin MAX_PRIORITY_LEVELS → List Slot} {p x : Slot}
    {i j : Fin MAX_PRIORITY_LEVELS} (h : x ∈ update queues j (queues j ++ [p]) i) :
    x = p ∨ ∃ j, x ∈ queues j := by
  by_cases hij : i = j
  · subst hij
    rw [update_self, List.mem_append, List.mem_singleton] at h
    exact h.symm.imp id fun hx => ⟨i, hx⟩
  · rw [update_of_ne hij] at h
    exact .inr ⟨i, h⟩

/-- **The helpers over lists do what the names say.** -/
theorem listHelpers_documented : listHelpers.Documented where
  pcbSetState_state _ _ := rfl
  pcbSetPriority_state _ _ := rfl
  pcbAlloc_free t p t' h := by
    obtain ⟨x, hx, he⟩ := Option.map_eq_some_iff.mp h
    cases he
    have hfree := List.find?_some hx
    exact ⟨of_decide_eq_true hfree, rfl, fun _ _ => rfl⟩
  pcbFree_release t p := by
    refine ⟨rfl, ?_, ?_, fun q hq => update_of_ne hq _ _⟩
    · simp [listHelpers, Pcb.zero]
    · simp [listHelpers, Pcb.zero]
  processTableInit_free _ _ := rfl
  processTableFind_allocated _ _ _ h := by
    have hfound := List.find?_some h
    exact of_decide_eq_true hfound
  readyQueueInit_empty _ := rfl
  readyQueueEnqueue_append _ _ := rfl
  readyQueueDequeue_pop _ := rfl
  readyQueueRemove_mem l p x := by simp [listHelpers]
  mlfqInit_empty _ _ _ := rfl
  mlfqEnqueue_append m p i := by
    simp only [listHelpers]
    rw [lastLevel_ofNat]
  mlfqEnqueue_mem _ _ _ _ _ h := mem_update_append h
  mlfqDequeue_pop m := m.pop_spec
  mlfqAdjustPriority_state _ _ _ _ := rfl
  mlfqAdjustPriority_mem _ _ _ _ i _ h := .inr ⟨i, h⟩
  waitQueueInit_empty := rfl
  waitQueueEnqueue_append _ _ := rfl
  waitQueueRemove_mem w p x := by simp [listHelpers]

/-- The helpers write nothing but what their names say, and find a free slot if there is one. -/
structure Helpers.Complete (H : Helpers) : Prop extends H.Documented where
  pcbSetState_eq : ∀ q st, H.pcbSetState q st = { q with state := st }
  pcbAlloc_some : ∀ t p, t.allocated p = false → H.pcbAlloc t ≠ none
  mlfqEnqueue_keeps : ∀ m p level i x, x ∈ m.queues i → x ∈ (H.mlfqEnqueue m p level).queues i
  mlfqEnqueue_other : ∀ m p level i x, x ≠ p → x ∈ (H.mlfqEnqueue m p level).queues i →
    x ∈ m.queues i
  mlfqAdjustPriority_other : ∀ m p q b i x, x ≠ p →
    (x ∈ (H.mlfqAdjustPriority m p q b).1.queues i ↔ x ∈ m.queues i)
  mlfqAdjustPriority_deadline : ∀ m p q b, (H.mlfqAdjustPriority m p q b).2.deadline = q.deadline

theorem listHelpers_complete : listHelpers.Complete where
  toDocumented := listHelpers_documented
  pcbSetState_eq _ _ := rfl
  pcbAlloc_some t p h := by
    intro hnone
    have hno := List.find?_eq_none.mp (Option.map_eq_none_iff.mp hnone) p (List.mem_finRange p)
    exact hno (decide_eq_true h)
  mlfqEnqueue_keeps m p level i x h := by
    show x ∈ update m.queues _ _ i
    by_cases hi : i = lastLevel level
    · subst hi
      rw [update_self]
      exact List.mem_append_left _ h
    · rw [update_of_ne hi]
      exact h
  mlfqEnqueue_other m p level i x hx h := by
    change x ∈ update m.queues _ _ i at h
    by_cases hi : i = lastLevel level
    · subst hi
      rw [update_self, List.mem_append, List.mem_singleton] at h
      exact h.resolve_right hx
    · rw [update_of_ne hi] at h
      exact h
  mlfqAdjustPriority_other _ _ _ _ _ _ _ := Iff.rfl
  mlfqAdjustPriority_deadline _ _ _ _ := rfl

/-- The helpers over lists, but a process that is to be queued at a level that does not exist is not
queued. -/
def strictHelpers : Helpers := { listHelpers with
  mlfqEnqueue := fun m p level =>
    if level.toNat < MAX_PRIORITY_LEVELS then listHelpers.mlfqEnqueue m p level else m }

/-- **What is documented of the helpers says nothing about a level that does not exist.** -/
theorem strictHelpers_complete : strictHelpers.Complete := { listHelpers_complete with
  mlfqEnqueue_append := fun m p i => by
    have hi : (UInt8.ofNat i.val).toNat < MAX_PRIORITY_LEVELS := by
      have h := i.isLt
      rw [UInt8.toNat_ofNat']
      exact (Nat.mod_le _ _).trans_lt h
    show Mlfq.queues (if _ then _ else _) = _
    rw [if_pos hi, listHelpers_documented.mlfqEnqueue_append]
  mlfqEnqueue_mem := fun m p level i x h => by
    change x ∈ Mlfq.queues (if _ then _ else _) i at h
    split at h
    · exact listHelpers_documented.mlfqEnqueue_mem m p level i x h
    · exact .inr ⟨i, h⟩
  mlfqEnqueue_keeps := fun m p level i x h => by
    show x ∈ Mlfq.queues (if _ then _ else _) i
    split
    · exact listHelpers_complete.mlfqEnqueue_keeps m p level i x h
    · exact h
  mlfqEnqueue_other := fun m p level i x hx h => by
    change x ∈ Mlfq.queues (if _ then _ else _) i at h
    split at h
    · exact listHelpers_complete.mlfqEnqueue_other m p level i x hx h
    · exact h }

/-- `mlfq_enqueue` appends at the level that `lv` makes of the byte it is given. -/
structure Helpers.Levels (H : Helpers) (lv : UInt8 → Fin MAX_PRIORITY_LEVELS) : Prop where
  level : ∀ i : Fin MAX_PRIORITY_LEVELS, lv (UInt8.ofNat i.val) = i
  append : ∀ m p b,
    (H.mlfqEnqueue m p b).queues = update m.queues (lv b) (m.queues (lv b) ++ [p])

theorem listHelpers_levels : listHelpers.Levels lastLevel := ⟨lastLevel_ofNat, fun _ _ _ => rfl⟩

/-- `time_used`, `time_created` and `time_terminated`. -/
def Pcb.times (q : Pcb) : UInt32 × UInt32 × UInt32 := (q.timeUsed, q.timeCreated, q.timeTerminated)

/-- A new process has used no time, and the helpers leave the three times of a process alone; those
of a PCB that is released may stay or be cleared. -/
structure Helpers.KeepsTimes (H : Helpers) : Prop extends H.Documented where
  pcbInit_unused : ∀ q pid name type priority,
    (H.pcbInit q pid name type priority).timeUsed = 0
  pcbSetState_times : ∀ q st, (H.pcbSetState q st).times = q.times
  pcbSetPriority_times : ∀ q n, (H.pcbSetPriority q n).times = q.times
  mlfqAdjustPriority_times : ∀ m p q b, (H.mlfqAdjustPriority m p q b).2.times = q.times
  pcbFree_times : ∀ t p, ((H.pcbFree t p).processes p).times = (t.processes p).times ∨
    ((H.pcbFree t p).processes p).times = (0, 0, 0)

theorem listHelpers_keepsTimes : listHelpers.KeepsTimes where
  toDocumented := listHelpers_documented
  pcbInit_unused _ _ _ _ _ := rfl
  pcbSetState_times _ _ := rfl
  pcbSetPriority_times _ _ := rfl
  mlfqAdjustPriority_times _ _ _ _ := rfl
  pcbFree_times t p := by
    refine .inr ?_
    show (update t.processes p Pcb.zero p).times = _
    rw [update_self]
    rfl

/-! ## Executed runs -/

variable {H : Helpers} {ok : State → Op → Prop} [∀ s op, Decidable (ok s op)] {s t : State}
  {ops : List Op}

theorem run_of_exec (h : exec (step H) (fun s op => decide (ok s op)) s ops = some t) :
    Reaches (Step H) ok s t :=
  reaches_of_exec (fun _ _ hb => of_decide_eq_true hb) (fun _ _ _ hs => hs) h

theorem anyRun_of_exec (h : exec (step H) (fun _ _ => true) s ops = some t) :
    Reaches (Step H) anyAction s t :=
  reaches_of_exec (fun _ _ _ => trivial) (fun _ _ _ hs => hs) h

end OSCompas.Kernel
