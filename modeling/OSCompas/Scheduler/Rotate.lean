import OSCompas.Scheduler.WellFormed

/-!
# Yield does not rotate the queue

`scheduler_yield` adds the current process to `ready_queue`, `scheduler_rr_schedule` adds it again
because it is ready, and `scheduler_schedule` adds it once more when another process is to run.
Adding a process that is last already makes it its own successor.

* `OneQueue l k xs` — the queue `k` alone is the list `xs`;
* `EndsAt l p x` — the queue ends at `p`, and `x` has been taken off;
* `Rotated` — what a yield is to leave.

Principal results: `yield_loops`, `yield_alone` and, from them, `yield_never_rotates`.
-/

set_option autoImplicit false

namespace OSCompas.Scheduler

open Function Intrusive Runs

variable {s s' : State} {l l' : Links} {k : QueueId} {p x q : Slot} {xs : List Slot}

/-! ## One queue -/

/-- The queue `k` is the doubly linked list `xs` with the right count. -/
structure OneQueue (l : Links) (k : QueueId) (xs : List Slot) : Prop where
  queue : IsQueue l.next l.prev none (l.queue k).head (l.queue k).tail xs
  count : (l.queue k).count.toNat = xs.length

/-- The links when all queues but `k` are empty. -/
def Links.only (l : Links) (k : QueueId) : Links :=
  { l with queue := update (fun _ => ⟨none, none, 0⟩) k (l.queue k) }

/-- The lists when all queues but `k` are empty. -/
def onlyList (k : QueueId) (xs : List Slot) : Queues := update (fun _ => []) k xs

@[simp] theorem only_queue (l : Links) (k : QueueId) : (l.only k).queue k = l.queue k := by
  simp [Links.only]

theorem enqueue_only (l : Links) (k : QueueId) (p : Slot) :
    (l.only k).enqueue k p = (l.enqueue k p).map (·.only k) := by
  unfold Links.enqueue Links.append
  cases hh : (l.queue k).head with
  | none => simp [Links.only, hh]
  | some h =>
    cases ht : (l.queue k).tail with
    | none => simp [Links.only, hh, ht]
    | some t => simp [Links.only, hh, ht]

theorem dequeue_only (l : Links) (k : QueueId) :
    (l.only k).dequeue k = (l.dequeue k).map fun r => (r.1.only k, r.2) := by
  unfold Links.dequeue
  rw [only_queue]
  dsimp only
  split
  · simp [Links.only]
  · cases (l.queue k).head with
    | none => rfl
    | some h => simp [Links.only]

theorem oneQueue_iff : OneQueue l k xs ↔
    Threaded (l.only k) noAfter (onlyList k xs) ∧ Counted (l.only k) (onlyList k xs) := by
  unfold onlyList
  constructor
  · intro h
    refine ⟨⟨fun k' => ?_, fun y k₁ k₂ h₁ h₂ => ?_⟩, fun k' => ?_⟩
    · by_cases hk : k' = k
      · subst hk
        rw [only_queue, update_self]
        exact h.queue
      · simp [Links.only, hk, isQueue_nil]
    · by_cases hk₁ : k₁ = k <;> by_cases hk₂ : k₂ = k
      · rw [hk₁, hk₂]
      · simp [hk₂] at h₂
      · simp [hk₁] at h₁
      · simp [hk₁] at h₁
    · by_cases hk : k' = k
      · subst hk
        rw [only_queue, update_self]
        exact h.count
      · simp [Links.only, hk]
  · rintro ⟨ht, hc⟩
    have hq := ht.queue k
    have hn := hc k
    rw [only_queue, update_self] at hq hn
    exact ⟨hq, hn⟩

/-- **A process that does not wait goes to the end.** -/
theorem OneQueue.enqueue (h : OneQueue l k xs) (hp : p ∉ xs) :
    ∃ l', l.enqueue k p = some l' ∧ OneQueue l' k (xs ++ [p]) := by
  obtain ⟨ht, hc⟩ := oneQueue_iff.mp h
  have hout : ∀ k', p ∉ onlyList k xs k' := fun k' hp' => by
    unfold onlyList at hp'
    by_cases hk : k' = k
    · subst hk
      rw [update_self] at hp'
      exact hp hp'
    · simp [hk] at hp'
  obtain ⟨l₁, h1, h2, h3⟩ := enqueue_spec ht hout (k := k)
  rw [enqueue_only] at h1
  obtain ⟨l', hl, rfl⟩ := Option.map_eq_some_iff.mp h1
  have hpush : push (onlyList k xs) k p = onlyList k (xs ++ [p]) := by
    unfold push onlyList
    rw [update_self, update_idem]
  have hcount := hc.add (p := p) h3 (length_le_of_nodup (ht.queue k).nodup)
  rw [hpush] at hcount
  refine ⟨l', hl, oneQueue_iff.mpr ⟨?_, hcount⟩⟩
  rw [← hpush]
  exact h2

/-- **The first process is taken off.** -/
theorem OneQueue.dequeue (h : OneQueue l k (x :: xs)) :
    ∃ l', l.dequeue k = some (l', some x) ∧ OneQueue l' k xs ∧ l'.prev x = none := by
  obtain ⟨ht, hc⟩ := oneQueue_iff.mp h
  have hk : onlyList k (x :: xs) k = x :: xs := update_self _ _ _
  obtain ⟨l₁, h1, h2, h3, -, h5⟩ := dequeue_spec ht hk rfl
  rw [dequeue_only] at h1
  obtain ⟨⟨l', o⟩, hl, he⟩ := Option.map_eq_some_iff.mp h1
  cases he
  have hrest : update (onlyList k (x :: xs)) k xs = onlyList k xs := update_idem _ _ _
  have hcount := hc.take h3 hk
  rw [hrest] at h2 hcount
  exact ⟨l', hl, oneQueue_iff.mpr ⟨h2, hcount⟩, h5⟩

/-- Adding does not read through a missing tail. -/
theorem OneQueue.enqueue_total (h : OneQueue l k xs) (p : Slot) :
    ∃ l', l.enqueue k p = some l' := by
  unfold Links.enqueue Links.append
  dsimp only
  cases hh : (l.queue k).head with
  | none => exact ⟨_, rfl⟩
  | some y =>
    cases ht : (l.queue k).tail with
    | none =>
      have hnil : xs = [] := h.queue.tail_none_iff.mp ht
      rw [h.queue.head_none_iff.mpr hnil] at hh
      cases hh
    | some t => exact ⟨_, rfl⟩

/-! ## Adding the last process again -/

/-- The queue ends at `p`, and `x` has no predecessor. -/
structure EndsAt (l : Links) (k : QueueId) (p x : Slot) : Prop where
  head : (l.queue k).head ≠ none
  tail : (l.queue k).tail = some p
  prev : l.prev x = none

/-- **The last process becomes its own successor.** -/
theorem EndsAt.enqueue (h : EndsAt l k p x) (hx : x ≠ p) :
    ∃ l', l.enqueue k p = some l' ∧ EndsAt l' k p x ∧ l'.next p = some p := by
  obtain ⟨y, hy⟩ := Option.ne_none_iff_exists'.mp h.head
  unfold Links.enqueue Links.append
  simp only [hy, h.tail]
  refine ⟨_, rfl, ⟨?_, ?_, ?_⟩, ?_⟩
  · simp
  · simp
  · simp [hx, h.prev]
  · simp

theorem OneQueue.endsAt (h : OneQueue l k (xs ++ [p])) (hprev : l.prev x = none) :
    EndsAt l k p x := by
  refine ⟨?_, ?_, hprev⟩
  · rw [h.queue.head_eq]
    simp
  · rw [h.queue.tail_eq]
    simp

/-! ## The dispatch -/

theorem fifoSchedule_takes (h : OneQueue s.links .ready (x :: xs)) : ∃ l,
    fifoSchedule s = some ({ s with links := l }, some x) ∧ OneQueue l .ready xs ∧
      l.prev x = none := by
  obtain ⟨l, hd, hq, hprev⟩ := h.dequeue
  have hne : (s.links.queue .ready).count ≠ 0 := fun h0 => by
    have hcount := h.count
    rw [h0] at hcount
    cases hcount
  exact ⟨l, fifoSchedule_some hd hne, hq, hprev⟩

/-- The first process is taken off; round robin adds the current one. -/
theorem selectNext_takes (ht : s.config.type = .fifo ∨ s.config.type = .rr)
    (hc : s.current = some p) (hp : (s.pcb p).state = .ready)
    (h : OneQueue s.links .ready (x :: xs)) : ∃ l₁ l₂,
      selectNext s = some ({ s with links := l₂ }, some x) ∧ OneQueue l₁ .ready xs ∧
      l₁.prev x = none ∧ (l₂ = l₁ ∨ l₁.enqueue .ready p = some l₂) := by
  obtain ⟨l₁, hf, hq, hprev⟩ := fifoSchedule_takes h
  unfold selectNext
  rcases ht with ht | ht
  · rw [ht]
    exact ⟨l₁, l₁, hf, hq, hprev, .inl rfl⟩
  · obtain ⟨l₂, hl₂⟩ := hq.enqueue_total p
    have hadd : addToReadyQueue { s with links := l₁ } p = some { s with links := l₂ } :=
      addToReadyQueue_single (s := { s with links := l₁ }) (by simp [ht]) hl₂
    refine ⟨l₁, l₂, ?_, hq, hprev, .inr hl₂⟩
    rw [ht]
    dsimp only
    unfold rrSchedule
    rw [hf]
    simp only [Option.bind_eq_bind, Option.bind_some, hc, hp, if_pos]
    rw [← hc, hadd]
    rfl

/-- The forward reading of a dispatch that switches. -/
theorem schedule_switch {s₁ s₂ : State} (hsel : selectNext s = some (s₁, some x))
    (hc : s₁.current = some p) (hx : x ≠ p)
    (ha : addToReadyQueue (s₁.setState p .ready) p = some s₂) :
    schedule s = some (switchTo s₂ x) := by
  have hne : ¬ some p = some x := fun he => hx (Option.some.inj he).symm
  unfold schedule
  simp only [hsel, Option.bind_eq_bind, Option.bind_some, hc, if_neg hne, ha]
  rfl

/-- The current process `p` is ready, waits at the end, and another one runs. -/
theorem schedule_loops (ht : s.config.type = .fifo ∨ s.config.type = .rr)
    (hc : s.current = some p) (hp : (s.pcb p).state = .ready)
    (h : OneQueue s.links .ready (x :: (xs ++ [p]))) :
    ∃ s', schedule s = some s' ∧ s'.links.next p = some p := by
  have hx : x ≠ p := fun he => (List.nodup_cons.mp h.queue.nodup).1 (by simp [he])
  have hns : s.config.type ≠ .mlfq := by
    rcases ht with ht | ht <;> simp [ht]
  obtain ⟨l₁, l₂, hsel, hq, hprev, hl⟩ := selectNext_takes ht hc hp h
  have h₁ : EndsAt l₁ .ready p x := hq.endsAt hprev
  have h₂ : EndsAt l₂ .ready p x := by
    rcases hl with rfl | hl
    · exact h₁
    · obtain ⟨l', hl', he, -⟩ := h₁.enqueue hx
      rw [hl] at hl'
      cases hl'
      exact he
  obtain ⟨l₃, hl₃, h₃, hnext⟩ := h₂.enqueue hx
  -- the state the context switch starts from
  obtain ⟨s₃, hadd, hconf, rfl⟩ : ∃ s₃,
      addToReadyQueue (({ s with links := l₂ } : State).setState p .ready) p = some s₃ ∧
        s₃.config.type ≠ .mlfq ∧ s₃.links = l₃ :=
    ⟨_, addToReadyQueue_single (s := ({ s with links := l₂ } : State).setState p .ready) hns hl₃,
      hns, rfl⟩
  refine ⟨_, schedule_switch hsel hc hx hadd, ?_⟩
  rw [switchTo_single hconf, unlink_next, if_neg hx.symm, h₃.prev, if_neg (by simp)]
  exact hnext

/-! ## The property -/

/-- The processes `xs` are ready and wait; `p` runs and does not wait. -/
structure Yielding (s : State) (p : Slot) (xs : List Slot) : Prop where
  type : s.config.type = .fifo ∨ s.config.type = .rr
  current : s.current = some p
  running : (s.pcb p).state = .running
  queue : OneQueue s.links .ready xs
  out : p ∉ xs
  ready : ∀ q ∈ xs, (s.pcb q).state = .ready

/-- The first of `xs` runs and `p` is last, or `p` goes on if nobody waits. -/
def Rotated (s' : State) (p : Slot) : List Slot → Prop
  | [] => s'.current = some p ∧ (s'.pcb p).state = .running ∧ OneQueue s'.links .ready []
  | q :: xs => s'.current = some q ∧ (s'.pcb q).state = .running ∧
      OneQueue s'.links .ready (xs ++ [p])

/-- The current process is made ready and goes to the end. -/
theorem Yielding.readd (h : Yielding s p xs) : ∃ l, OneQueue l .ready (xs ++ [p]) ∧
    yield s = schedule { s.setState p .ready with links := l } := by
  have hns : (s.setState p .ready).config.type ≠ .mlfq := by
    show s.config.type ≠ .mlfq
    rcases h.type with ht | ht <;> simp [ht]
  obtain ⟨l, hl, hq⟩ := h.queue.enqueue h.out
  refine ⟨l, hq, ?_⟩
  unfold yield
  rw [h.current]
  dsimp only
  rw [addToReadyQueue_single hns hl]
  rfl

/-- **Somebody waits**: the process that yields ends up as its own successor. -/
theorem yield_loops (h : Yielding s p (q :: xs)) :
    ∃ s', yield s = some s' ∧ s'.links.next p = some p := by
  obtain ⟨l, hq, hy⟩ := h.readd
  rw [hy]
  refine schedule_loops h.type h.current ?_ hq
  simp [State.setState]

/-- **Nobody waits**: the process that yields stays the current one, but ready. -/
theorem yield_alone (h : Yielding s p []) :
    ∃ s', yield s = some s' ∧ s'.current = some p ∧ (s'.pcb p).state = .ready := by
  obtain ⟨l, hq, hy⟩ := h.readd
  have hready : ((s.setState p .ready).pcb p).state = .ready := by simp [State.setState]
  obtain ⟨-, l₂, hsel, -⟩ := selectNext_takes (s := { s.setState p .ready with links := l })
    h.type h.current hready hq
  refine ⟨{ s.setState p .ready with links := l₂ }, ?_, h.current, hready⟩
  rw [hy]
  unfold schedule
  rw [hsel]
  simp only [Option.bind_eq_bind, Option.bind_some]
  exact if_pos h.current

/-- **No yield rotates the queue.** -/
theorem yield_never_rotates (h : Yielding s p xs) :
    ∃ s', yield s = some s' ∧ ¬ Rotated s' p xs := by
  cases xs with
  | nil =>
    obtain ⟨s', hy, -, hready⟩ := yield_alone h
    refine ⟨s', hy, ?_⟩
    rintro ⟨-, hrun, -⟩
    rw [hready] at hrun
    cases hrun
  | cons q xs =>
    obtain ⟨s', hy, hloop⟩ := yield_loops h
    refine ⟨s', hy, ?_⟩
    rintro ⟨-, -, hq⟩
    -- a well-formed list ends at `p`
    have htail : (s'.links.queue .ready).tail = some p := by
      rw [hq.queue.tail_eq]
      simp
    have hend := hq.queue.tail_next htail
    rw [hloop] at hend
    cases hend

/-- What a run can be asked about. -/
theorem Yielding.of_run {config : Config} (hrun : Reaches Step ShapeGuard (schedulerInit config) s)
    (ht : s.config.type = .fifo ∨ s.config.type = .rr) (hc : s.current = some p)
    (hp : (s.pcb p).state = .running) (hlist : s.list .ready = xs) (hout : p ∉ xs)
    (hready : ∀ q ∈ xs, (s.pcb q).state = .ready) : Yielding s p xs := by
  obtain ⟨qs, hsh, hcount⟩ := run_counted hrun
  have hqs : qs .ready = xs := by rw [← hlist, hsh.list]
  refine ⟨ht, hc, hp, ⟨?_, ?_⟩, hout, hready⟩
  · rw [← hqs]
    exact hsh.threaded.queue .ready
  · rw [← hqs]
    exact hcount .ready

theorem yield_never_rotates_two : ∃ s, Yielding s 0 [1] ∧
    ∃ s', yield s = some s' ∧ ¬ Rotated s' 0 [1] := by
  have hx : (exec step (fun s op => decide (ShapeGuard s op))
      (schedulerInit ⟨.rr, 10, 1, 0, 0⟩) [.create [] 0, .schedule, .create [] 0]).map
      (fun s => (s.config.type, s.current, (s.pcb 0).state, (s.pcb 1).state, s.list .ready)) =
      some (.rr, some 0, .running, .ready, [1]) := by decide +kernel
  obtain ⟨s, hs, hobs⟩ := Option.map_eq_some_iff.mp hx
  simp only [Prod.mk.injEq] at hobs
  obtain ⟨ht, hc, hp, hq, hlist⟩ := hobs
  have h : Yielding s 0 [1] := .of_run (run_of_exec hs) (.inr ht) hc hp hlist (by simp)
    (by simp [hq])
  exact ⟨s, h, yield_never_rotates h⟩

/-- A process that is alone under FIFO yields, and is not running afterwards. -/
theorem yield_does_not_rotate : ¬ ∀ s p xs, Yielding s p xs →
    ∃ s', yield s = some s' ∧ Rotated s' p xs := by
  intro hall
  have hx : (exec step (fun s op => decide (ShapeGuard s op))
      (schedulerInit ⟨.fifo, 10, 0, 0, 0⟩) [.create [] 0, .schedule]).map
      (fun s => (s.config.type, s.current, (s.pcb 0).state, s.list .ready,
        (yield s).map fun s' => (s'.pcb 0).state)) =
      some (.fifo, some 0, .running, [], some .ready) := by decide +kernel
  obtain ⟨s, hs, hobs⟩ := Option.map_eq_some_iff.mp hx
  simp only [Prod.mk.injEq] at hobs
  obtain ⟨ht, hc, hp, hlist, hy⟩ := hobs
  have h : Yielding s 0 [] := .of_run (run_of_exec hs) (.inl ht) hc hp hlist (by simp) (by simp)
  obtain ⟨s', hs', -, hrun, -⟩ := hall s 0 [] h
  rw [hs', Option.map_some, hrun] at hy
  cases hy

end OSCompas.Scheduler
