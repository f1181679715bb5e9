import OSCompas.Scheduler.Calls

/-!
# Well-formed ready queues

`scheduler_schedule` takes a process off its queue and then takes it out once more, and
`scheduler_terminate_process` takes the current process out although it is in no queue.

* `QueueOk`, `QueuesOk` — a queue is a finite acyclic doubly linked list with the right count;
* `CountOk` — a call decrements no count twice and resets no longer list;
* `ShapeGuard` — the condition.

Principal results: `step_counted`, `queues_well_formed` and `queues_not_well_formed`.
-/

set_option autoImplicit false

namespace OSCompas.Scheduler

open Function Intrusive Chain Runs

/-- The queue `k` is the doubly linked list of the processes `xs`. -/
structure QueueOk (l : Links) (k : QueueId) (xs : List Slot) : Prop where
  acyclic : xs.Nodup
  walk : IsChain (fun o => o.bind l.next) none (l.queue k).head (xs.map some)
  tail : (l.queue k).tail = xs.getLast?
  head_prev : ∀ x, (l.queue k).head = some x → l.prev x = none
  tail_next : ∀ x, (l.queue k).tail = some x → l.next x = none
  inverse : ∀ x ∈ xs, ∀ y ∈ xs, l.next x = some y ↔ l.prev y = some x
  ends : (l.queue k).head = none ↔ (l.queue k).tail = none
  count : (l.queue k).count.toNat = xs.length

/-- Every queue is a finite acyclic doubly linked list. -/
def QueuesOk (s : State) : Prop := ∀ k, ∃ xs, QueueOk s.links k xs

variable {s s' : State} {qs : Queues} {op : Op} {config : Config}

/-- A queue of the library with the right count. -/
theorem queueOk_iff {l : Links} {k : QueueId} {xs : List Slot} : QueueOk l k xs ↔
    IsQueue l.next l.prev none (l.queue k).head (l.queue k).tail xs ∧
      (l.queue k).count.toNat = xs.length := by
  constructor
  · intro h
    obtain ⟨hhead, hlinked⟩ := linked_of_isChain h.walk h.head_prev fun x hx y hy hn =>
      (h.inverse x hx y hy).mp hn
    exact ⟨⟨h.acyclic, hhead, h.tail, hlinked⟩, h.count⟩
  · rintro ⟨hq, hcount⟩
    refine ⟨hq.nodup, hq.isChain, hq.tail_eq, fun x hx => hq.head_prev hx,
      fun x hx => hq.tail_next hx, fun x hx y hy => hq.next_iff_prev hx hy, ?_, hcount⟩
    rw [hq.head_none_iff, hq.tail_none_iff]

theorem Shape.queuesOk (h : Shape s qs) (hc : Counted s.links qs) : QueuesOk s :=
  fun k => ⟨qs k, queueOk_iff.mpr ⟨h.threaded.queue k, hc k⟩⟩

/-! ## The condition -/

/-- The doubled decrement of a dispatch and the lost list of a termination keep the counts. -/
def CountOk (s : State) : Op → Prop
  | .create _ _ => True
  | .terminate pid => ∀ i ∈ findProcess s pid, LosesOne s s.list i ∧
      ∀ c ∈ s.current, (s.pcb c).pid = pid → ∀ x ∈ s.pickWithout i,
        s.unmanaged x ∨ s.afterRetire s.list i (s.homeQueue x) = [x]
  | .yield => s.current = none → OneWaiting s s.list
  | .tick => True
  | .schedule => OneWaiting s s.list

instance (s : State) (qs : Queues) : Decidable (OneWaiting s qs) := by
  delta OneWaiting
  infer_instance

instance (s : State) (op : Op) : Decidable (CountOk s op) := by
  delta CountOk
  exact match op with
  | .create _ _ | .terminate _ | .yield | .tick | .schedule => inferInstance

/-- The condition on a call and the state before it. -/
def ShapeGuard (s : State) (op : Op) : Prop := LinkOk s op ∧ CountOk s op

instance (s : State) (op : Op) : Decidable (ShapeGuard s op) :=
  inferInstanceAs (Decidable (_ ∧ _))

/-! ## Runs -/

/-- **A guarded call keeps the queues doubly linked, and their counts.** -/
theorem step_counted (h : Shape s qs) (hc : Counted s.links qs) (hg : ShapeGuard s op)
    (hs : Step s op s') : ∃ qs', Shape s' qs' ∧ Counted s'.links qs' := by
  obtain ⟨hlink, hcount⟩ := hg
  cases op with
  | create name priority =>
    obtain ⟨⟨s₁, o⟩, hcr, rfl⟩ := Option.map_eq_some_iff.mp hs
    rcases create_cases hcr with ⟨-, rfl⟩ | ⟨p, s₀, hf, hcreated, ha⟩
    · exact ⟨qs, h, hc⟩
    · have hout := hlink p hf
      rw [h.list] at hout
      obtain ⟨h1, h2⟩ := create_shape h hcreated hout ha
      exact ⟨_, h1, h2 hc⟩
  | terminate pid =>
    rcases terminate_cases hs with ⟨-, rfl⟩ | ⟨i, hf, hcase⟩
    · exact ⟨qs, h, hc⟩
    · obtain ⟨hlose, hone⟩ := hcount i hf
      rw [h.list] at hlose hone
      rcases hcase with ⟨c, hcur, hpid, hsch⟩ | ⟨-, rfl⟩
      · obtain ⟨h1, h2⟩ := vacated_shape h (hlink i hf)
        obtain ⟨hp, hpick, -⟩ := vacated_effect s i
        obtain ⟨h3, h4⟩ := schedule_shape h1 (scheduleOk_of_none rfl) hsch
        refine ⟨_, h3, h4 (h2 hc hlose) fun x hx _ => ?_⟩
        rw [hpick] at hx
        rw [hp.unmanaged, hp.home]
        exact hone c hcur hpid x hx
      · obtain ⟨h1, h2⟩ := retire_shape h (hlink i hf)
        exact ⟨_, h1, h2 hc hlose⟩
  | yield =>
    cases hcur : s.current with
    | none =>
      have hsch : schedule s = some s' := (yield_none hcur).symm.trans hs
      have hone := hcount hcur
      rw [h.list] at hone
      obtain ⟨h1, h2⟩ := schedule_shape h (scheduleOk_of_none hcur) hsch
      exact ⟨_, h1, h2 hc hone⟩
    | some c =>
      obtain ⟨h1, h2, -⟩ := yield_shape h hcur (hlink c hcur) hs
      exact ⟨_, h1, h2 hc⟩
  | tick =>
    obtain ⟨qs', h1, -, -, h2⟩ := tick_shape h hlink hs
    exact ⟨qs', h1, h2 hc⟩
  | schedule =>
    have hone : OneWaiting s s.list := hcount
    rw [h.list] at hone
    obtain ⟨h1, h2⟩ := schedule_shape h hlink hs
    exact ⟨_, h1, h2 hc hone⟩

theorem run_counted (hrun : Reaches Step ShapeGuard (schedulerInit config) s) :
    ∃ qs, Shape s qs ∧ Counted s.links qs := by
  refine hrun.invariant (I := fun s => ∃ qs, Shape s qs ∧ Counted s.links qs) ?_ ?_
  · exact ⟨fun _ => [], Shape.init config, fun _ => rfl⟩
  · rintro s op s' ⟨qs, h, hc⟩ hg hs
    exact step_counted h hc hg hs

/-- **In a guarded run every queue is a finite acyclic doubly linked list with the right count.** -/
theorem queues_well_formed (hrun : Reaches Step ShapeGuard (schedulerInit config) s) :
    QueuesOk s := by
  obtain ⟨qs, h, hc⟩ := run_counted hrun
  exact h.queuesOk hc

theorem queues_well_formed_run : ∃ s, (s.links.queue (.level 2)).count = 1 ∧
    Reaches Step ShapeGuard (schedulerInit ⟨.mlfq, 10, 1, 4, 100⟩) s ∧ QueuesOk s := by
  have hx : (exec step (fun s op => decide (ShapeGuard s op))
      (schedulerInit ⟨.mlfq, 10, 1, 4, 100⟩) [.create [] 0, .schedule, .create [] 1, .tick,
        .create [] 2, .schedule, .terminate 1]).map (fun s => (s.links.queue (.level 2)).count) =
      some 1 := by decide +kernel
  obtain ⟨s, hs, hc⟩ := Option.map_eq_some_iff.mp hx
  have hrun := run_of_exec hs
  exact ⟨s, hc, hrun, queues_well_formed hrun⟩

/-- Two processes wait under FIFO, and one is dispatched: the count is zero, the other still
waits. -/
theorem queues_not_well_formed : ¬ ∀ config s,
    Reaches Step anyAction (schedulerInit config) s → QueuesOk s := by
  intro hall
  have hx : (exec step (fun _ _ => true) (schedulerInit ⟨.fifo, 10, 0, 4, 100⟩)
      [.create [] 0, .create [] 0, .schedule]).map
      (fun s => ((s.links.queue .ready).head, (s.links.queue .ready).count)) =
      some (some 1, 0) := by decide +kernel
  obtain ⟨s, hs, hobs⟩ := Option.map_eq_some_iff.mp hx
  simp only [Prod.mk.injEq] at hobs
  obtain ⟨hhead, hcount⟩ := hobs
  obtain ⟨xs, hok⟩ := hall _ s (anyRun_of_exec hs) .ready
  have hlen : xs.length = 0 := by
    rw [← hok.count, hcount]
    rfl
  have hwalk := hok.walk
  rw [List.length_eq_zero_iff.mp hlen, List.map_nil, isChain_nil, hhead] at hwalk
  cases hwalk

end OSCompas.Scheduler
