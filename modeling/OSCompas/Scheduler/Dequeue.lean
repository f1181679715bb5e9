import Mathlib.Data.Fin.VecNotation
import Mathlib.Tactic.FinCases
import OSCompas.Scheduler.Line
import OSCompas.Scheduler.WellFormed

/-!
# Serving the queues

`scheduler_fifo_schedule` and `scheduler_mlfq_schedule` against what they stand for: a list whose
first process is served, and four lists of which the first that is not empty is.

* `Served qs i` — the first of the lists `qs` that is not empty is `qs i`.

The process that is served keeps its `next`, which leads into the queue it came from.

Principal results: `QueueOk.dequeue`, `QueueOk.elsewhere` and `dequeues_serve`.
-/

set_option autoImplicit false

namespace OSCompas.Scheduler

open Function Intrusive

variable {s s' : State} {l l' : Links} {k k' : QueueId} {x : Slot} {xs ys : List Slot}

/-- The first of the lists that is not empty. -/
def Served (qs : Fin MAX_PRIORITY_LEVELS → List Slot) (i : Fin MAX_PRIORITY_LEVELS) : Prop :=
  qs i ≠ [] ∧ ∀ j < i, qs j = []

/-! ## One queue -/

theorem QueueOk.isQueue (h : QueueOk l k xs) :
    IsQueue l.next l.prev none (l.queue k).head (l.queue k).tail xs := (queueOk_iff.mp h).1

theorem QueueOk.lined (h : QueueOk l k xs) : Lined l k xs :=
  ⟨h.isQueue.head_eq, h.isQueue.tail_eq, h.isQueue.linked.successors, h.acyclic⟩

theorem QueueOk.count_eq_zero_iff (h : QueueOk l k xs) : (l.queue k).count = 0 ↔ xs = [] := by
  rw [← UInt32.toNat_inj, h.count]
  exact List.length_eq_zero_iff

/-- What a dequeue leaves alone: every successor, the other queues, and the predecessors but for
that of the new first process. -/
structure Dequeued (l l' : Links) (k : QueueId) (xs : List Slot) : Prop where
  next : l'.next = l.next
  prev : ∀ y, xs.head? ≠ some y → l'.prev y = l.prev y
  queue : ∀ k', k' ≠ k → l'.queue k' = l.queue k'

/-- **The first process is taken off, and the rest is a well-formed queue.** -/
theorem QueueOk.dequeue (h : QueueOk l k (x :: xs)) : ∃ l', l.dequeue k = some (l', some x) ∧
    QueueOk l' k xs ∧ Dequeued l l' k xs := by
  obtain ⟨l', hd, hl, hcount, hnext, hfirst, hprev, hq⟩ := h.lined.dequeue
  refine ⟨l', hd, queueOk_iff.mpr ⟨⟨hl.nodup, hl.head, hl.tail, ?_⟩, ?_⟩, hnext, hprev, hq⟩
  · have hsame : ∀ y ∈ xs, l'.next y = l.next y := fun y _ => congrFun hnext y
    exact (h.isQueue.popFront hsame hfirst fun y _ hy => hprev y hy).linked
  · have hlen := h.count
    rw [List.length_cons] at hlen
    have h1 : (1 : UInt32) ≤ (l.queue k).count := by
      rw [UInt32.le_iff_toNat_le, hlen]
      exact Nat.le_add_left 1 _
    rw [hcount, UInt32.toNat_sub_of_le _ _ h1, hlen]
    rfl

/-- **Another queue stays as it is**, unless it is the same list. -/
theorem QueueOk.elsewhere (h : QueueOk l k (x :: xs)) (h' : QueueOk l k' ys)
    (hd : Dequeued l l' k xs) (hk : k' ≠ k) (hne : ys.head? ≠ some x) : QueueOk l' k' ys := by
  have hout : ∀ y ∈ ys, y ∉ x :: xs := by
    intro y hy hmem
    have hheads := h'.isQueue.head_eq_of_mem h.isQueue hy hmem
    rw [h'.isQueue.head_eq, h.isQueue.head_eq] at hheads
    exact hne hheads
  rw [queueOk_iff, hd.queue k' hk]
  refine ⟨h'.isQueue.congr (fun y _ => congrFun hd.next y) fun y hy => hd.prev y ?_, h'.count⟩
  intro hfirst
  exact hout y hy (List.mem_cons_of_mem x (List.mem_of_head? hfirst))

/-! ## The two functions -/

/-- **`scheduler_fifo_schedule` serves a list.** -/
theorem fifoSchedule_serves (h : QueueOk s.links .ready xs) : ∃ s', fifoSchedule s =
    some (s', xs.head?) ∧ (xs = [] → s' = s) ∧ QueueOk s'.links .ready xs.tail := by
  unfold fifoSchedule
  cases xs with
  | nil =>
    rw [if_pos (h.count_eq_zero_iff.mpr rfl)]
    exact ⟨s, rfl, fun _ => rfl, h⟩
  | cons x xs =>
    obtain ⟨l', hd, hok, -⟩ := h.dequeue
    rw [if_neg (fun h0 => absurd (h.count_eq_zero_iff.mp h0) (by simp)), hd]
    exact ⟨_, rfl, by simp, hok⟩

variable {qs : Fin MAX_PRIORITY_LEVELS → List Slot} {i : Fin MAX_PRIORITY_LEVELS}

theorem level_counted_iff (h : ∀ j, QueueOk s.links (.level j) (qs j))
    (j : Fin MAX_PRIORITY_LEVELS) :
    decide ((s.links.queue (.level j)).count > 0) = true ↔ qs j ≠ [] := by
  rw [decide_eq_true_iff, count_pos_iff, Ne, (h j).count_eq_zero_iff]

/-- The search finds the first list that is not empty. -/
theorem firstLevel_eq_some_iff (h : ∀ j, QueueOk s.links (.level j) (qs j)) :
    s.firstLevel = some i ↔ Served qs i := by
  unfold State.firstLevel
  rw [List.find?_eq_some_iff_getElem, level_counted_iff h]
  refine and_congr_right fun _ => ?_
  simp only [List.getElem_finRange, Bool.not_eq_true', ← Bool.not_eq_true, level_counted_iff h,
    not_not]
  constructor
  · rintro ⟨n, hn, rfl, hall⟩ j hj
    exact hall j.val hj
  · intro hall
    exact ⟨i.val, by simp, rfl, fun j hj => hall _ hj⟩

theorem firstLevel_eq_none_iff (h : ∀ j, QueueOk s.links (.level j) (qs j)) :
    s.firstLevel = none ↔ ∀ j, qs j = [] := by
  unfold State.firstLevel
  rw [List.find?_eq_none]
  simp only [level_counted_iff h, not_not, List.mem_finRange, forall_const]

/-- **`scheduler_mlfq_schedule` serves the first list that is not empty.** -/
theorem mlfqSchedule_serves (h : ∀ j, QueueOk s.links (.level j) (qs j)) (hi : Served qs i) :
    ∃ s', mlfqSchedule s = some (s', (qs i).head?) ∧ QueueOk s'.links (.level i) (qs i).tail ∧
      ∀ j, j ≠ i → s'.links.queue (.level j) = s.links.queue (.level j) ∧
        ((qs j).head? ≠ (qs i).head? → QueueOk s'.links (.level j) (qs j)) := by
  obtain ⟨x, xs, hx⟩ := List.exists_cons_of_ne_nil hi.1
  have hok := h i
  rw [hx] at hok
  obtain ⟨l', hd, hrest, hout⟩ := hok.dequeue
  unfold mlfqSchedule
  rw [(firstLevel_eq_some_iff h).mpr hi, hx]
  simp only [hd, Option.bind_eq_bind, Option.bind_some]
  refine ⟨_, rfl, hrest, fun j hj => ?_⟩
  have hlevel : QueueId.level j ≠ .level i := fun he => hj (QueueId.level.inj he)
  exact ⟨hout.queue _ hlevel, fun hne => hok.elsewhere (h j) hout hlevel hne⟩

/-- **The two dequeues are those of a list, and of four lists in their order.**  Two of the four may
be one and the same list; then only its record stays in the other place. -/
theorem dequeues_serve (s : State) :
    (∀ xs, QueueOk s.links .ready xs → ∃ s' o, fifoSchedule s = some (s', o) ∧
      (o = none ↔ xs = []) ∧ (o = none → s' = s) ∧ o = xs.head? ∧
        QueueOk s'.links .ready xs.tail) ∧
    ∀ qs : Fin MAX_PRIORITY_LEVELS → List Slot, (∀ j, QueueOk s.links (.level j) (qs j)) →
      ∃ s' o, mlfqSchedule s = some (s', o) ∧ (o = none ↔ ∀ j, qs j = []) ∧
        (o = none → s' = s) ∧
        ∀ i, Served qs i → o = (qs i).head? ∧ QueueOk s'.links (.level i) (qs i).tail ∧
          ∀ j, j ≠ i → s'.links.queue (.level j) = s.links.queue (.level j) ∧
            ((qs j).head? ≠ (qs i).head? → QueueOk s'.links (.level j) (qs j)) := by
  refine ⟨fun xs h => ?_, fun qs h => ?_⟩
  · obtain ⟨s', hs, hsame, hok⟩ := fifoSchedule_serves h
    exact ⟨s', xs.head?, hs, List.head?_eq_none_iff,
      fun hn => hsame (List.head?_eq_none_iff.mp hn), rfl, hok⟩
  · cases hf : s.firstLevel with
    | none =>
      have hnil := (firstLevel_eq_none_iff h).mp hf
      have hnone : mlfqSchedule s = some (s, none) := by
        unfold mlfqSchedule
        rw [hf]
      exact ⟨s, none, hnone, iff_of_true rfl hnil, fun _ => rfl,
        fun i hi => absurd (hnil i) hi.1⟩
    | some i =>
      have hi := (firstLevel_eq_some_iff h).mp hf
      obtain ⟨s', hs, hserved⟩ := mlfqSchedule_serves h hi
      have hsome : (qs i).head? ≠ none := fun hn => hi.1 (List.head?_eq_none_iff.mp hn)
      refine ⟨s', _, hs, iff_of_false hsome fun hnil => hi.1 (hnil i), fun hn => absurd hn hsome,
        fun k hk => ?_⟩
      obtain rfl := Option.some.inj (hf.symm.trans ((firstLevel_eq_some_iff h).mpr hk))
      exact ⟨rfl, hserved⟩

/-- With two processes at level 1 and one at level 3, the first of level 1 is served. -/
theorem dequeues_serve_second : ∃ s s', QueueOk s.links (.level 1) [0, 1] ∧
    QueueOk s.links (.level 3) [2] ∧ mlfqSchedule s = some (s', some 0) ∧
    QueueOk s'.links (.level 1) [1] ∧ QueueOk s'.links (.level 3) [2] := by
  let links : Links := {
    next := fun x => if x = 0 then some 1 else none
    prev := fun x => if x = 1 then some 0 else none
    queue := fun k =>
      if k = .level 1 then ⟨some 0, some 1, 2⟩
      else if k = .level 3 then ⟨some 2, some 2, 1⟩
      else ⟨none, none, 0⟩ }
  have hok : ∀ j, QueueOk links (.level j)
      ((![[], [0, 1], [], [2]] : Fin MAX_PRIORITY_LEVELS → List Slot) j) := by
    intro j
    refine queueOk_iff.mpr ?_
    fin_cases j
    · exact ⟨⟨by decide, rfl, rfl, trivial⟩, rfl⟩
    · exact ⟨⟨by decide, rfl, rfl, rfl, rfl, rfl, rfl, trivial⟩, rfl⟩
    · exact ⟨⟨by decide, rfl, rfl, trivial⟩, rfl⟩
    · exact ⟨⟨by decide, rfl, rfl, rfl, rfl, trivial⟩, rfl⟩
  obtain ⟨s', o, hs, -, -, hserved⟩ :=
    (dequeues_serve { schedulerInit ⟨.mlfq, 10, 1, 4, 100⟩ with links := links }).2 _ hok
  obtain ⟨rfl, hrest, helse⟩ := hserved 1 ⟨by decide, by decide⟩
  exact ⟨_, s', hok 1, hok 3, hs, hrest, (helse 3 (by decide)).2 (by decide)⟩

end OSCompas.Scheduler
