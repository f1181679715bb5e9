import OSCompas.Scheduler.Queues
import Mathlib.Data.List.Chain

/-!
# Queues by their forward links

The queues as `scheduler.c` reads them: from the head on, along `next`.  The `prev` links and the
count of such a queue may be stale, and its last process may point anywhere.

* `Lined l k xs` — from its head on the queue `k` is the list `xs`.

Principal results: `Lined.enqueue`, `Lined.again` (the last process is added once more),
`Lined.dequeue` and `Lined.unlink` (a process that was taken off the head is taken out again).
-/

set_option autoImplicit false

namespace OSCompas.Scheduler

open Function

variable {l l' : Links} {k : QueueId} {p x : Slot} {xs : List Slot}

/-- From its head on the queue `k` is the list `xs`. -/
structure Lined (l : Links) (k : QueueId) (xs : List Slot) : Prop where
  head : (l.queue k).head = xs.head?
  tail : (l.queue k).tail = xs.getLast?
  next : xs.IsChain fun a b => l.next a = some b
  nodup : xs.Nodup

/-- Only the successors of the processes before the last one count. -/
theorem chain_congr {next next' : Slot → Option Slot} (h : xs.IsChain fun a b => next a = some b)
    (hnd : xs.Nodup) (hn : ∀ p ∈ xs, xs.getLast? ≠ some p → next' p = next p) :
    xs.IsChain fun a b => next' a = some b := by
  induction xs with
  | nil => exact .nil
  | cons x xs ih =>
    cases xs with
    | nil => exact .singleton x
    | cons y ys =>
      obtain ⟨hxy, hrest⟩ := List.isChain_cons_cons.mp h
      obtain ⟨hx, hnd⟩ := List.nodup_cons.mp hnd
      rw [List.getLast?_cons_cons] at hn
      refine List.isChain_cons_cons.mpr ⟨?_, ih hrest hnd fun p hp => ?_⟩
      · rw [hn x (by simp) fun he => hx (List.mem_of_getLast? he)]
        exact hxy
      · exact hn p (List.mem_cons_of_mem x hp)

theorem Lined.congr (h : Lined l k xs) (hh : (l'.queue k).head = (l.queue k).head)
    (ht : (l'.queue k).tail = (l.queue k).tail)
    (hn : ∀ p ∈ xs, xs.getLast? ≠ some p → l'.next p = l.next p) : Lined l' k xs :=
  ⟨hh.trans h.head, ht.trans h.tail, chain_congr h.next h.nodup hn, h.nodup⟩

/-! ## Adding -/

/-- Appending only changes the successor of the last process, and its own queue. -/
theorem append_next (h : l.append k p = some l') :
    (∀ y, (l.queue k).tail ≠ some y → l'.next y = l.next y) ∧ (l'.queue k).tail = some p ∧
      ∀ k', k' ≠ k → l'.queue k' = l.queue k' := by
  unfold Links.append at h
  dsimp only at h
  split at h
  · cases h
    refine ⟨fun _ _ => rfl, ?_, fun k' hk' => update_of_ne hk' _ _⟩
    simp
  · split at h
    · cases h
    · rename_i t ht
      cases h
      refine ⟨fun y hy => ?_, ?_, fun k' hk' => update_of_ne hk' _ _⟩
      · rw [ht] at hy
        exact update_of_ne (fun he => hy (by rw [he])) _ _
      · simp

/-- Adding only changes the predecessor of the process that is added. -/
theorem enqueue_prev (h : l.enqueue k p = some l') {y : Slot} (hy : y ≠ p) :
    l'.prev y = l.prev y := by
  unfold Links.enqueue Links.append at h
  dsimp only at h
  split at h
  · cases h
    exact update_of_ne hy _ _
  · split at h
    · cases h
    · cases h
      exact (update_of_ne hy _ _).trans (update_of_ne hy _ _)

/-- The last process points at the one that is added. -/
theorem enqueue_last (h : l.enqueue k p = some l') {y : Slot} (hh : (l.queue k).head ≠ none)
    (ht : (l.queue k).tail = some y) : l'.next y = some p := by
  unfold Links.enqueue Links.append at h
  dsimp only at h
  split at h
  · exact absurd ‹_› hh
  · rw [ht] at h
    cases h
    exact update_self ..

/-- A process that is added has no successor, unless it was the last one already. -/
theorem enqueue_self (h : l.enqueue k p = some l') (ht : (l.queue k).tail ≠ some p) :
    l'.next p = none := by
  unfold Links.enqueue Links.append at h
  dsimp only at h
  split at h
  · cases h
    exact update_self ..
  · split at h
    · cases h
    · rename_i t htail
      cases h
      have hpt : p ≠ t := fun he => ht (by rw [htail, he])
      exact (update_of_ne hpt _ _).trans (update_self ..)

/-- The first process of a queue has no predecessor. -/
theorem enqueue_first (h : l.enqueue k p = some l') (hh : (l.queue k).head = none) :
    l'.prev p = none := by
  unfold Links.enqueue Links.append at h
  dsimp only at h
  rw [hh] at h
  cases h
  exact update_self ..

/-- A queue with a last process, or without any, can be added to. -/
theorem Lined.enqueue_some (h : Lined l k xs) (p : Slot) : ∃ l', l.enqueue k p = some l' := by
  have hhead := h.head
  have htail := h.tail
  unfold Links.enqueue Links.append
  dsimp only
  cases xs with
  | nil =>
    rw [hhead]
    exact ⟨_, rfl⟩
  | cons x xs =>
    rw [hhead, htail, List.getLast?_cons]
    exact ⟨_, rfl⟩

/-- **Adding a process that is not in the list.** -/
theorem Lined.enqueue (h : Lined l k xs) (hp : p ∉ xs) (he : l.enqueue k p = some l') :
    Lined l' k (xs ++ [p]) := by
  obtain ⟨hq, hn⟩ := enqueue_eq he
  have hqk := congrFun hq k
  rw [update_self] at hqk
  constructor
  · rw [hqk, h.head]
    cases xs <;> rfl
  · rw [hqk, List.getLast?_concat]
  · refine List.isChain_append.mpr ⟨?_, .singleton p, ?_⟩
    · apply chain_congr h.next h.nodup
      intro y hy hlast
      exact (hn y (fun hyp => hp (hyp ▸ hy)) (by rw [h.tail]; exact hlast)).1
    · intro t ht y hy
      obtain rfl : p = y := Option.some.inj hy
      apply enqueue_last he
      · rw [h.head]
        intro hnil
        rw [List.head?_eq_none_iff.mp hnil] at ht
        cases ht
      · rw [h.tail]
        exact ht
  · exact List.nodup_append.mpr ⟨h.nodup, by simp, fun a ha b hb => by
      rw [List.mem_singleton.mp hb]
      exact fun hab => hp (hab ▸ ha)⟩

/-- **Adding the last process once more** leaves the list as it is. -/
theorem Lined.again (h : Lined l k (xs ++ [p])) (he : l.enqueue k p = some l') :
    Lined l' k (xs ++ [p]) := by
  obtain ⟨hq, hn⟩ := enqueue_eq he
  have hqk := congrFun hq k
  rw [update_self] at hqk
  have hlast := h.tail
  rw [List.getLast?_concat] at hlast
  apply h.congr
  · rw [hqk, h.head]
    cases xs <;> rfl
  · rw [hqk, hlast]
  · intro y _ hy
    rw [List.getLast?_concat] at hy
    refine (hn y (fun hyp => hy (by rw [hyp])) ?_).1
    rw [hlast]
    exact hy

/-! ## Taking off -/

/-- **Taking off the first process** changes no successor and no other queue; the new first process
has no predecessor. -/
theorem Lined.dequeue (h : Lined l k (x :: xs)) : ∃ l', l.dequeue k = some (l', some x) ∧
    Lined l' k xs ∧ (l'.queue k).count = (l.queue k).count - 1 ∧ l'.next = l.next ∧
      (∀ y ∈ xs.head?, l'.prev y = none) ∧ (∀ y, xs.head? ≠ some y → l'.prev y = l.prev y) ∧
        ∀ k', k' ≠ k → l'.queue k' = l.queue k' := by
  have hhead : (l.queue k).head = some x := h.head
  unfold Links.dequeue
  simp only [hhead]
  cases xs with
  | nil =>
    have htail : (l.queue k).tail = some x := h.tail
    rw [if_pos htail.symm]
    refine ⟨_, rfl, ⟨?_, ?_, .nil, List.nodup_nil⟩, ?_, rfl, ?_, fun _ _ => rfl,
      fun k' hk' => update_of_ne hk' _ _⟩
    · simp
    · simp
    · simp
    · simp
  | cons y ys =>
    have hnd := List.nodup_cons.mp h.nodup
    obtain ⟨hnext, hchain⟩ := List.isChain_cons_cons.mp h.next
    have hne : ¬ some x = (l.queue k).tail := by
      rw [h.tail, List.getLast?_cons_cons]
      intro he
      exact hnd.1 (List.mem_of_getLast? he.symm)
    rw [if_neg hne]
    simp only [hnext]
    refine ⟨_, rfl, ⟨?_, ?_, hchain, hnd.2⟩, ?_, rfl, ?_, ?_, fun k' hk' => update_of_ne hk' _ _⟩
    · simp
    · simpa using h.tail
    · simp
    · simp
    · intro z hz
      exact update_of_ne (fun he => hz (by rw [he]; rfl)) _ _

/-- **A process that has just been taken off the head of a longer list is taken out again.** -/
theorem Lined.unlink (h : Lined l k xs) (hx : x ∉ xs) (hne : xs ≠ []) (hprev : l.prev x = none)
    (hnext : l.next x = xs.head?) : Lined (l.unlink k x) k xs ∧
      ∀ y ∈ xs.head?, (l.unlink k x).prev y = none := by
  have hsome : l.next x ≠ none := by
    rw [hnext]
    exact fun hnil => hne (List.head?_eq_none_iff.mp hnil)
  refine ⟨h.congr ?_ ?_ fun y hy _ => ?_, fun y hy => ?_⟩
  · rw [unlink_queue, update_self, if_pos hprev, hnext, h.head]
  · rw [unlink_queue, update_self, if_neg hsome]
  · rw [unlink_next, if_neg (fun hyx : y = x => hx (hyx ▸ hy)), hprev, if_neg (by simp)]
  · have hyx : y ≠ x := fun he => hx (he ▸ List.mem_of_head? hy)
    rw [unlink_prev, if_neg hyx, if_pos (hnext.trans hy), hprev]

end OSCompas.Scheduler
