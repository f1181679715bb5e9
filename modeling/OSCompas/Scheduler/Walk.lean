import OSCompas.Scheduler.WellFormed

/-!
# Walks past a process

A process that is in no queue may still stand in the links of others.  A walk that passes it over
meets the list of a queue exactly if it starts at its head and no link on the way leads astray.

* `Chained next xs` — every process of `xs` has the next one for a successor;
* `skip i o` — where a link leads to when `i` is passed over;
* `State.others s i` — the processes other than `i` met in every queue;
* `Dispatched` — what `scheduler_schedule` writes when there is no current process.

Principal results: `follow_others`, `others_iff` and `schedule_idle`.
-/

set_option autoImplicit false

namespace OSCompas.Scheduler

open Function Intrusive

variable {s s' : State} {l : Links} {ws : Queues} {k : QueueId} {y i a : Slot} {xs : List Slot}

/-! ## Walks past a process -/

/-- Every process has the next one of the list for a successor. -/
def Chained (next : Slot → Option Slot) : List Slot → Prop
  | [] => True
  | x :: xs => next x = xs.head? ∧ Chained next xs

theorem chained_of_linked {next prev : Slot → Option Slot} {before : Option Slot}
    (h : Linked next prev before none xs) : Chained next xs := by
  induction xs generalizing before with
  | nil => trivial
  | cons x xs ih =>
    obtain ⟨-, h2, h3⟩ := h
    rw [Option.or_none] at h2
    exact ⟨h2, ih h3⟩

theorem Chained.follow {next next' : Slot → Option Slot} {n : Nat} (h : Chained next xs)
    (hn : xs.length ≤ n) (hag : ∀ z ∈ xs, next' z = next z) : follow next' n xs.head? = xs := by
  induction xs generalizing n with
  | nil => cases n <;> rfl
  | cons x xs ih =>
    obtain ⟨h1, h2⟩ := h
    cases n with
    | zero => simp at hn
    | succ n =>
      have hx : next' x = xs.head? := (hag x (by simp)).trans h1
      simp only [List.head?_cons, Scheduler.follow, hx]
      rw [ih h2 (by simpa using hn) fun z hz => hag z (List.mem_cons_of_mem x hz)]

/-- The process a link leads to when `i`, which ends the walk, is passed over. -/
def skip (i : Slot) (o : Option Slot) : Option Slot := if o = some i then none else o

theorem skip_of_ne {o : Option Slot} (h : o ≠ some i) : skip i o = o := if_neg h

theorem skip_eq_some {o : Option Slot} (h : y ≠ i) : skip i o = some y ↔ o = some y := by
  unfold skip
  by_cases ho : o = some i
  · simp [ho, Ne.symm h]
  · simp [ho]

/-- **A walk past `i` meets the list** exactly if it starts at its head and the one link that was
written still leads on. -/
theorem follow_others {next next' : Slot → Option Slot} {n : Nat} {o : Option Slot}
    (h : Chained next xs) (hnd : xs.Nodup) (hi : i ∉ xs) (hend : next' i = none)
    (hn : xs.length < n) (hag : ∀ z ∈ xs, z ≠ a → next' z = next z) :
    (follow next' n o).filter (· ≠ i) = xs ↔
      skip i o = xs.head? ∧ (a ∈ xs → skip i (next' a) = next a) := by
  have hstop : ∀ m, follow next' m none = [] := fun m => by cases m <;> rfl
  induction xs generalizing n o with
  | nil =>
    obtain ⟨m, rfl⟩ := Nat.exists_eq_add_one_of_ne_zero (Nat.ne_of_gt hn)
    cases o with
    | none => simp [follow, skip]
    | some b =>
      by_cases hb : b = i
      · subst hb
        simp [follow, skip, hend, hstop]
      · simp [follow, skip, hb]
  | cons y ys ih =>
    obtain ⟨hy, hch⟩ := h
    obtain ⟨hnotin, hnd'⟩ := List.nodup_cons.mp hnd
    have hiy : y ≠ i := fun he => hi (by simp [he])
    have hiys : i ∉ ys := fun hm => hi (List.mem_cons_of_mem y hm)
    obtain ⟨m, rfl⟩ := Nat.exists_eq_add_one_of_ne_zero (n := n) (by omega)
    have hm : ys.length < m := by simpa using hn
    rw [List.head?_cons, skip_eq_some hiy]
    cases o with
    | none => simp [follow]
    | some b =>
      by_cases hb : b = i
      · subst hb
        simp [follow, hend, hstop, Ne.symm hiy]
      · have hcons : (follow next' (m + 1) (some b)).filter (· ≠ i) =
            b :: (follow next' m (next' b)).filter (· ≠ i) := by
          simp [follow, hb]
        rw [hcons, List.cons.injEq, Option.some.injEq]
        refine and_congr_right ?_
        rintro rfl
        have hrest := ih (o := next' b) hch hnd' hiys hm fun z hz =>
          hag z (List.mem_cons_of_mem b hz)
        refine hrest.trans ?_
        by_cases hba : b = a
        · -- the link that was written starts here, so it is not met again
          subst hba
          simp [hnotin, hy]
        · have hnext : next' b = ys.head? := (hag b (by simp) hba).trans hy
          have hhead : ys.head? ≠ some i := fun he => hiys (List.mem_of_head? he)
          rw [hnext, skip_of_ne hhead]
          simp [Ne.symm hba]

/-! ## The others -/

/-- The processes other than `i` met in every queue. -/
def State.others (s : State) (i : Slot) : Queues := fun k => (s.list k).filter (· ≠ i)

theorem others_iff {next : Slot → Option Slot} (hch : ∀ k, Chained next (ws k))
    (hnd : ∀ k, (ws k).Nodup) (hi : ∀ k, i ∉ ws k) (hend : s.links.next i = none)
    (hag : ∀ k, ∀ z ∈ ws k, z ≠ a → s.links.next z = next z) :
    s.others i = ws ↔ ∀ k, skip i (s.links.queue k).head = (ws k).head? ∧
      (a ∈ ws k → skip i (s.links.next a) = next a) := by
  rw [funext_iff]
  refine forall_congr' fun k => follow_others (hch k) (hnd k) (hi k) hend ?_ (hag k)
  have hlen := length_le_of_nodup (List.nodup_cons.mpr ⟨hi k, hnd k⟩)
  rwa [List.length_cons] at hlen

/-- Neither a head nor a link of a process that waits was written. -/
theorem others_same {next : Slot → Option Slot} (hch : ∀ k, Chained next (ws k))
    (hnd : ∀ k, (ws k).Nodup) (hi : ∀ k, i ∉ ws k)
    (hag : ∀ k, ∀ z ∈ ws k, s.links.next z = next z)
    (hhead : ∀ k, (s.links.queue k).head = (ws k).head?) : s.others i = ws := by
  funext k
  have hlist : s.list k = ws k := by
    unfold State.list
    rw [hhead k]
    exact (hch k).follow (length_le_of_nodup (hnd k)) (hag k)
  unfold State.others
  rw [hlist]
  refine List.filter_eq_self.mpr fun y hy => decide_eq_true ?_
  rintro rfl
  exact hi k hy

/-! ## The dispatch with no current process -/

/-- The head of the queue `k` when its first process `y` was taken off. -/
def Links.headOff (l : Links) (k : QueueId) (y : Slot) : Option Slot :=
  if (l.queue k).tail = some y then none else l.next y

/-- The predecessor `y` is left with. -/
def Links.prevOff (l : Links) (k : QueueId) (y : Slot) : Option Slot :=
  if (l.queue k).tail ≠ some y ∧ l.next y = some y then none else l.prev y

theorem dequeue_some (hy : (l.queue k).head = some y) : ∃ l', l.dequeue k = some (l', some y) ∧
    l'.next = l.next ∧ (∀ k', k' ≠ k → l'.queue k' = l.queue k') ∧
    (l'.queue k).head = l.headOff k y ∧ l'.prev y = l.prevOff k y := by
  unfold Links.dequeue Links.headOff Links.prevOff
  simp only [hy]
  by_cases ht : (l.queue k).tail = some y
  · simp only [ht, if_true]
    refine ⟨_, rfl, rfl, fun k' hk' => update_of_ne hk' _ _, ?_, ?_⟩
    · simp
    · simp
  · rw [if_neg (Ne.symm ht)]
    refine ⟨_, rfl, rfl, fun k' hk' => update_of_ne hk' _ _, ?_, ?_⟩
    · simp [ht]
    · cases hn : l.next y with
      | none => simp
      | some z =>
        by_cases hz : z = y
        · subst hz
          simp [ht]
        · simp [hz, Ne.symm hz]

/-- The first process `y` of the queue `k` was taken off and taken out once more. -/
structure Dispatched (s s' : State) (k : QueueId) (y : Slot) : Prop where
  current : s'.current = some y
  queue : ∀ k', k' ≠ k → s'.links.queue k' = s.links.queue k'
  next : ∀ z, z ≠ y → s'.links.next z =
    if ¬ s.unmanaged y ∧ s.links.prevOff k y = some z then s.links.next y else s.links.next z
  head : (s'.links.queue k).head =
    if ¬ s.unmanaged y ∧ s.links.prevOff k y = none then s.links.next y
    else s.links.headOff k y

/-- With no current process round robin takes the head off as the others do. -/
theorem selectNext_idle (hc : s.current = none) (hk : s.pickQueue = some k)
    (hd : s.links.dequeue k = some (l, some y)) :
    ∃ s₁, selectNext s = some (s₁, some y) ∧ s₁.links = l := by
  by_cases ht : s.config.type = .mlfq
  · rw [pickQueue_mlfq ht] at hk
    obtain ⟨j, hj, rfl⟩ := Option.map_eq_some_iff.mp hk
    refine ⟨{ s with
      links := l
      pcb := update s.pcb y { s.pcb y with timeSlice := s.timeSlices j, timeInQueue := 0 } }, ?_, rfl⟩
    unfold selectNext mlfqSchedule
    simp only [ht, hj, hd]
    rfl
  · rw [pickQueue_single ht] at hk
    have h0 : (s.links.queue .ready).count ≠ 0 := fun h0 => by simp [h0] at hk
    rw [if_neg h0] at hk
    obtain rfl := Option.some.inj hk
    have hf : fifoSchedule s = some ({ s with links := l }, some y) := fifoSchedule_some hd h0
    refine ⟨{ s with links := l }, ?_, rfl⟩
    unfold selectNext rrSchedule
    cases htype : s.config.type with
    | mlfq => exact absurd htype ht
    | fifo => exact hf
    | cfs => exact hf
    | rr => simp [hf, hc]

/-- **A dispatch with no current process.** -/
theorem schedule_idle (hc : s.current = none) (hk : s.pickQueue = some k)
    (hy : (s.links.queue k).head = some y) (hhome : s.homeQueue y = k) :
    ∃ s', schedule s = some s' ∧ Dispatched s s' k y := by
  obtain ⟨l, hd, hnext, hqueue, hhead, hprev⟩ := dequeue_some hy
  obtain ⟨s₁, hsel, hl⟩ := selectNext_idle hc hk hd
  obtain ⟨-, hst⟩ := selectNext_effect hsel
  have hc₁ : s₁.current = none := hst.current.trans hc
  have hsch : schedule s = some (switchTo s₁ y) := by
    unfold schedule
    rw [hsel]
    simp only [Option.bind_eq_bind, Option.bind_some, hc₁]
    exact if_neg (by simp)
  have hlinks := switchTo_links s₁ y
  rw [hst.toSameProcs.home, hhome, hl] at hlinks
  refine ⟨_, hsch, (switchTo_effect s₁ y).2.1, fun k' hk' => ?_, fun z hz => ?_, ?_⟩
  · rw [hlinks]
    split
    · exact hqueue k' hk'
    · rw [unlink_queue, update_of_ne hk']
      exact hqueue k' hk'
  · rw [hlinks]
    by_cases hu : s.unmanaged y
    · rw [if_pos ((hst.toSameProcs.unmanaged y).mpr hu), hnext, if_neg fun h => h.1 hu]
    · rw [if_neg fun hu' => hu ((hst.toSameProcs.unmanaged y).mp hu'), unlink_next, if_neg hz,
        hprev, hnext]
      simp [hu]
  · rw [hlinks]
    by_cases hu : s.unmanaged y
    · rw [if_pos ((hst.toSameProcs.unmanaged y).mpr hu), hhead, if_neg fun h => h.1 hu]
    · rw [if_neg fun hu' => hu ((hst.toSameProcs.unmanaged y).mp hu'), unlink_queue, update_self,
        hprev, hnext, hhead]
      simp [hu]

/-- Nobody is picked, so nothing is done. -/
theorem schedule_nobody (hk : s.pickQueue = none) : schedule s = some s := by
  have hsel : selectNext s = some (s, none) := by
    by_cases ht : s.config.type = .mlfq
    · rw [pickQueue_mlfq ht, Option.map_eq_none_iff] at hk
      unfold selectNext mlfqSchedule
      simp only [ht, hk]
    · rw [pickQueue_single ht] at hk
      have h0 : (s.links.queue .ready).count = 0 := by
        by_contra h0
        simp [h0] at hk
      have hf : fifoSchedule s = some (s, none) := if_pos h0
      unfold selectNext rrSchedule
      cases htype : s.config.type with
      | mlfq => exact absurd htype ht
      | fifo => exact hf
      | cfs => exact hf
      | rr => simp [hf]
  unfold schedule
  rw [hsel]
  rfl

/-- A dispatch that starts with no current process ends with the pick. -/
theorem schedule_idle_current (hc : s.current = none) (hs : schedule s = some s') :
    s'.current = s.pick := by
  obtain ⟨-, hcase⟩ := schedule_effect hs
  rw [hc] at hcase
  rcases hcase with ⟨hp, hst⟩ | ⟨x, hx, -, hsw⟩
  · rw [hst.current, hc]
    rcases hp with hp | hp <;> exact hp.symm
  · rw [hsw.current, hx]

end OSCompas.Scheduler
