import OSCompas.Lib.Intrusive
import OSCompas.Scheduler.Model

/-!
# The queues of the scheduler as lists

What the pointer code of `scheduler.c` does to the five queues, said on lists of processes.

* `Threaded l after qs` — the links thread exactly the queues `qs`, which share no process;
* `unlinkCount` — the guarded decrement of `remove_from_ready_queue`.

Principal results: `append_spec`, `enqueue_spec`, `dequeue_spec` and the three faces of
`remove_from_ready_queue`: `unlink_mem` (the process is in the queue), `unlink_popped` (it has
just been taken off the head) and `unlink_alone` (it has no neighbours: the whole queue is lost).
-/

set_option autoImplicit false

namespace OSCompas.Scheduler

open Function Intrusive

/-- The links thread the queues `qs`; `after k` is what the last process of `k` has for a
successor. -/
structure Threaded (l : Links) (after : QueueId → Option Slot) (qs : QueueId → List Slot) :
    Prop where
  queue : ∀ k, IsQueue l.next l.prev (after k) (l.queue k).head (l.queue k).tail (qs k)
  disjoint : ∀ p k k', p ∈ qs k → p ∈ qs k' → k = k'

/-- Every last process ends its queue. -/
def noAfter : QueueId → Option Slot := fun _ => none

variable {l l' : Links} {after : QueueId → Option Slot} {qs : QueueId → List Slot}
variable {k k' : QueueId} {p x y : Slot} {a b xs : List Slot} {o : Option Slot}

theorem Threaded.init : Threaded ⟨fun _ => none, fun _ => none, fun _ => ⟨none, none, 0⟩⟩ noAfter
    fun _ => [] :=
  ⟨fun _ => isQueue_nil.mpr ⟨rfl, rfl⟩, fun _ _ _ h => absurd h (by simp)⟩

theorem ne_of_mem (hp : ∀ k, p ∉ qs k) (hy : y ∈ qs k) : y ≠ p := fun he => hp k (he ▸ hy)

/-- Changing one queue to a list whose processes are in no other queue. -/
theorem Threaded.edit {after' : QueueId → Option Slot} (h : Threaded l after qs)
    (hk : IsQueue l'.next l'.prev (after' k) (l'.queue k).head (l'.queue k).tail xs)
    (hsub : ∀ y ∈ xs, y ∈ qs k ∨ ∀ k', y ∉ qs k')
    (hne : ∀ k', k' ≠ k → after' k' = after k' ∧ (l'.queue k').head = (l.queue k').head ∧
      (l'.queue k').tail = (l.queue k').tail)
    (hn : ∀ k', k' ≠ k → ∀ y ∈ qs k', l'.next y = l.next y ∧ l'.prev y = l.prev y) :
    Threaded l' after' (update qs k xs) := by
  refine ⟨fun k' => ?_, fun y k₁ k₂ h₁ h₂ => ?_⟩
  · by_cases hk' : k' = k
    · subst hk'
      rw [update_self]
      exact hk
    · obtain ⟨h1, h2, h3⟩ := hne k' hk'
      rw [update_of_ne hk', h1, h2, h3]
      exact (h.queue k').congr (fun y hy => (hn k' hk' y hy).1) fun y hy => (hn k' hk' y hy).2
  · by_cases hk₁ : k₁ = k <;> by_cases hk₂ : k₂ = k
    · exact hk₁.trans hk₂.symm
    · subst hk₁
      rw [update_self] at h₁
      rw [update_of_ne hk₂] at h₂
      rcases hsub y h₁ with hy | hy
      · exact h.disjoint y _ _ hy h₂
      · exact absurd h₂ (hy k₂)
    · subst hk₂
      rw [update_self] at h₂
      rw [update_of_ne hk₁] at h₁
      rcases hsub y h₂ with hy | hy
      · exact h.disjoint y _ _ h₁ hy
      · exact absurd h₁ (hy k₁)
    · rw [update_of_ne hk₁] at h₁
      rw [update_of_ne hk₂] at h₂
      exact h.disjoint y _ _ h₁ h₂

/-! ## Adding -/

/-- The count of `k` after `n` more were added to the queue `k₀`. -/
def Added (l l' : Links) (k₀ : QueueId) : Prop :=
  ∀ k, (l'.queue k).count = if k = k₀ then (l.queue k).count + 1 else (l.queue k).count

/-- The count after the head and the tail of the queue `k` were written with it. -/
theorem count_written (l : Links) (k k' : QueueId) (h t : Option Slot) :
    (update l.queue k ⟨h, t, (l.queue k).count + 1⟩ k').count =
      if k' = k then (l.queue k').count + 1 else (l.queue k').count := by
  by_cases hk : k' = k
  · subst hk
    simp
  · simp [hk]

/-- Appending adds one to the count, whatever the links are. -/
theorem append_count (h : l.append k p = some l') : Added l l' k := by
  unfold Links.append at h
  simp only at h
  split at h
  · cases h
    exact fun k' => count_written l k k' _ _
  · split at h
    · cases h
    · cases h
      exact fun k' => count_written l k k' _ _

theorem enqueue_count (h : l.enqueue k p = some l') : Added l l' k :=
  append_count (l := { l with next := update l.next p none, prev := update l.prev p none }) h

/-- **Appending a process that is in no queue.** -/
theorem append_spec (h : Threaded l after qs) (hp : ∀ k, p ∉ qs k) (hprev : l.prev p = none) :
    ∃ l', l.append k p = some l' ∧
      Threaded l' (update after k (l.next p)) (update qs k (qs k ++ [p])) ∧ Added l l' k := by
  have hq := h.queue k
  have hsub : ∀ y ∈ qs k ++ [p], y ∈ qs k ∨ ∀ k', y ∉ qs k' := fun y hy => by
    rcases List.mem_append.mp hy with hy | hy
    · exact .inl hy
    · rw [List.mem_singleton.mp hy]
      exact .inr hp
  unfold Links.append
  simp only
  split
  · rename_i hh
    have ht : (l.queue k).tail = none := hq.tail_none_iff.mpr (hq.head_none_iff.mp hh)
    refine ⟨_, rfl, h.edit (k := k) ?_ hsub (fun k' hk' => ?_) fun _ _ _ _ => ⟨rfl, rfl⟩,
      fun k' => count_written l k k' _ _⟩
    · have hpush : IsQueue l.next l.prev (l.next p) _ _ _ := hq.pushBack (hp k) rfl
        (hprev.trans ht.symm) (fun t he => by rw [ht] at he; cases he) (fun _ _ _ => rfl)
        fun _ _ => rfl
      simpa [hh] using hpush
    · simp [hk']
  · rename_i x hx
    cases ht : (l.queue k).tail with
    | none => exact absurd (hq.head_none_iff.mpr (hq.tail_none_iff.mp ht)) (by simp [hx])
    | some t =>
      have htm : t ∈ qs k := hq.mem_of_tail ht
      have hpt : p ≠ t := (ne_of_mem hp htm).symm
      have hother : ∀ k', k' ≠ k → ∀ y ∈ qs k', y ≠ t ∧ y ≠ p := fun k' hk' y hy =>
        ⟨fun he => hk' (h.disjoint t _ _ (he ▸ hy) htm), ne_of_mem hp hy⟩
      refine ⟨_, rfl, h.edit (k := k) ?_ hsub (fun k' hk' => ?_) (fun k' hk' y hy => ?_),
        fun k' => count_written l k k' _ _⟩
      · have hpush : IsQueue (update l.next t (some p)) (update l.prev p (some t)) (l.next p) _ _ _ :=
          hq.pushBack (hp k) (update_of_ne hpt _ _) ((update_self _ _ _).trans ht.symm)
            (fun t' he => by rw [ht] at he; cases he; exact update_self _ _ _)
            (fun y _ hy => update_of_ne (fun he => hy (by rw [ht, he])) _ _)
            fun y hy => update_of_ne (ne_of_mem hp hy) _ _
        simpa [hx] using hpush
      · simp [hk']
      · obtain ⟨h1, h2⟩ := hother k' hk' y hy
        simp [h1, h2]

/-- **`add_to_ready_queue` on a process that is in no queue.** -/
theorem enqueue_spec (h : Threaded l noAfter qs) (hp : ∀ k, p ∉ qs k) :
    ∃ l', l.enqueue k p = some l' ∧ Threaded l' noAfter (update qs k (qs k ++ [p])) ∧
      Added l l' k := by
  have hclear : Threaded { l with next := update l.next p none, prev := update l.prev p none }
      noAfter qs := by
    refine ⟨fun k' => (h.queue k').congr (fun y hy => ?_) fun y hy => ?_, h.disjoint⟩
    · exact update_of_ne (ne_of_mem hp hy) _ _
    · exact update_of_ne (ne_of_mem hp hy) _ _
  obtain ⟨l', h1, h2, h3⟩ := append_spec (k := k) hclear hp (update_self _ _ _)
  refine ⟨l', h1, ?_, h3⟩
  have hafter : update noAfter k (none : Option Slot) = noAfter := update_eq_self k noAfter
  simpa [hafter] using h2

/-- What `add_to_ready_queue` leaves alone, and the queue it makes. -/
theorem enqueue_eq (h : l.enqueue k p = some l') :
    l'.queue = update l.queue k
        ⟨(l.queue k).head.or (some p), some p, (l.queue k).count + 1⟩ ∧
      ∀ y, y ≠ p → (l.queue k).tail ≠ some y → l'.next y = l.next y ∧ l'.prev y = l.prev y := by
  unfold Links.enqueue Links.append at h
  simp only at h
  split at h
  · rename_i hh
    cases h
    refine ⟨by rw [hh]; rfl, fun y hy _ => ?_⟩
    simp [hy]
  · rename_i x hx
    split at h
    · cases h
    · rename_i t ht
      cases h
      refine ⟨by rw [hx]; rfl, fun y hy hty => ?_⟩
      have hyt : y ≠ t := fun he => hty (by rw [ht, he])
      simp [hy, hyt]

/-! ## Taking the head off -/

/-- One less in the queue `k₀`. -/
def Taken (l l' : Links) (k₀ : QueueId) : Prop :=
  ∀ k, (l'.queue k).count = if k = k₀ then (l.queue k).count - 1 else (l.queue k).count

theorem taken_update (h t : Option Slot) : ∀ k',
    (update l.queue k ⟨h, t, (l.queue k).count - 1⟩ k').count =
      if k' = k then (l.queue k').count - 1 else (l.queue k').count := by
  intro k'
  by_cases hk' : k' = k
  · subst hk'
    simp
  · simp [hk']

/-- Taking the head off takes one off the count. -/
theorem dequeue_count (h : l.dequeue k = some (l', o)) : Taken l l' k := by
  unfold Links.dequeue at h
  simp only at h
  split at h
  · cases h
    exact taken_update _ _
  · split at h
    · cases h
    · cases h
      exact taken_update _ _

/-- Of an empty queue only the count changes. -/
theorem dequeue_nil (h : Threaded l after qs) (hk : qs k = []) :
    l.dequeue k = some
      ({ l with queue := update l.queue k ⟨none, none, (l.queue k).count - 1⟩ }, none) := by
  have hq := h.queue k
  have hh := hq.head_none_iff.mpr hk
  have ht := hq.tail_none_iff.mpr hk
  unfold Links.dequeue
  simp [hh, ht]

theorem threaded_recount {c : UInt32} (h : Threaded l after qs) (hk : qs k = []) :
    Threaded { l with queue := update l.queue k ⟨none, none, c⟩ } after qs := by
  have hself : update qs k [] = qs := by rw [← hk, update_eq_self]
  rw [← hself]
  exact h.edit (isQueue_nil.mpr (by simp)) (by simp) (fun k' hk' => by simp [hk'])
    fun _ _ _ _ => ⟨rfl, rfl⟩

/-- **Taking the first process off a queue.**  It keeps its successor. -/
theorem dequeue_spec (h : Threaded l after qs) (hk : qs k = x :: xs) (ha : after k = none) :
    ∃ l', l.dequeue k = some (l', some x) ∧ Threaded l' after (update qs k xs) ∧ Taken l l' k ∧
      l'.next x = xs.head? ∧ l'.prev x = none := by
  have hq := h.queue k
  rw [hk, ha] at hq
  have hhead : (l.queue k).head = some x := hq.head_eq
  have hnext : l.next x = xs.head? := by rw [hq.head_next, Option.or_none]
  have hprev : l.prev x = none := hq.head_prev hhead
  have hnd := List.nodup_cons.mp hq.nodup
  have hsub : ∀ y ∈ xs, y ∈ qs k ∨ ∀ k', y ∉ qs k' := fun y hy => .inl (by simp [hk, hy])
  unfold Links.dequeue
  simp only [hhead]
  by_cases hxs : xs = []
  · subst hxs
    have htail : (l.queue k).tail = some x := hq.tail_eq
    rw [if_pos htail.symm]
    refine ⟨_, rfl, h.edit (k := k) ?_ hsub (fun k' hk' => by simp [hk'])
      (fun _ _ _ _ => ⟨rfl, rfl⟩), taken_update _ _, hnext, hprev⟩
    exact isQueue_nil.mpr (by simp)
  · have hne : ¬ some x = (l.queue k).tail := by
      rw [← hhead, hq.head_eq_tail_iff]
      have := List.length_pos_iff.mpr hxs
      simp only [List.length_cons]
      omega
    rw [if_neg hne]
    obtain ⟨y, ys, rfl⟩ := List.exists_cons_of_ne_nil hxs
    rw [hnext, List.head?_cons]
    have hxy : x ≠ y := fun he => hnd.1 (by simp [he])
    refine ⟨_, rfl, h.edit (k := k) ?_ hsub (fun k' hk' => by simp [hk'])
      (fun k' hk' z hz => ⟨rfl, ?_⟩), taken_update _ _, hnext, ?_⟩
    · have hpop : IsQueue l.next (update l.prev y none) none _ _ _ := hq.popFront (fun _ _ => rfl)
        (fun z hz => by cases hz; exact update_self _ _ _)
        fun z _ hz => update_of_ne (fun he => hz (by rw [he]; rfl)) _ _
      simpa [ha] using hpop
    · refine update_of_ne (fun he => hk' ?_) _ _
      exact h.disjoint y _ _ (he ▸ hz) (by simp [hk])
    · show update l.prev y none x = none
      rw [update_of_ne hxy, hprev]

/-! ## Taking a process out -/

/-- The guarded decrement of `remove_from_ready_queue`. -/
def unlinkCount (c : UInt32) : UInt32 := if c > 0 then c - 1 else c

/-- The two neighbours are joined; the successor is read again after the predecessor's was
written, but it is the same. -/
theorem unlink_eq (l : Links) (k : QueueId) (p : Slot) : l.unlink k p = {
    next := update (match l.prev p with
      | some a => update l.next a (l.next p)
      | none => l.next) p none
    prev := update (match l.next p with
      | some b => update l.prev b (l.prev p)
      | none => l.prev) p none
    queue := update l.queue k ⟨if l.prev p = none then l.next p else (l.queue k).head,
      if l.next p = none then l.prev p else (l.queue k).tail, unlinkCount (l.queue k).count⟩ } := by
  have hself : ∀ a v, l.next p = v → update l.next a v p = v := fun a v hv => by
    by_cases ha : p = a
    · rw [ha, update_self]
    · rw [update_of_ne ha, hv]
  unfold Links.unlink unlinkCount
  cases hprev : l.prev p with
  | none => cases hnext : l.next p <;> simp [hprev, hnext]
  | some a =>
    cases hnext : l.next p with
    | none => simp [hself a none hnext, hprev]
    | some b => simp [hself a (some b) hnext, hprev]

theorem unlink_next (l : Links) (k : QueueId) (p y : Slot) : (l.unlink k p).next y =
    if y = p then none else if l.prev p = some y then l.next p else l.next y := by
  rw [unlink_eq]
  by_cases hy : y = p
  · simp [hy]
  · cases hprev : l.prev p with
    | none => simp [hy]
    | some a => simp [hy, update_apply, eq_comm]

theorem unlink_prev (l : Links) (k : QueueId) (p y : Slot) : (l.unlink k p).prev y =
    if y = p then none else if l.next p = some y then l.prev p else l.prev y := by
  rw [unlink_eq]
  by_cases hy : y = p
  · simp [hy]
  · cases hnext : l.next p with
    | none => simp [hy]
    | some b => simp [hy, update_apply, eq_comm]

/-- Only the ends and the count of the queue `k` change. -/
theorem unlink_queue (l : Links) (k : QueueId) (p : Slot) : (l.unlink k p).queue =
    update l.queue k ⟨if l.prev p = none then l.next p else (l.queue k).head,
      if l.next p = none then l.prev p else (l.queue k).tail, unlinkCount (l.queue k).count⟩ := by
  rw [unlink_eq]

theorem unlinked_head (l : Links) (h k : QueueId) (i : Slot) : ((l.unlink h i).queue k).head =
    if k = h ∧ l.prev i = none then l.next i else (l.queue k).head := by
  rw [unlink_queue]
  by_cases hk : k = h
  · subst hk
    simp
  · simp [hk]

theorem unlinked_tail (l : Links) (h k : QueueId) (i : Slot) : ((l.unlink h i).queue k).tail =
    if k = h ∧ l.next i = none then l.prev i else (l.queue k).tail := by
  rw [unlink_queue]
  by_cases hk : k = h
  · subst hk
    simp
  · simp [hk]

/-- The guarded decrement of the queue `k₀`. -/
def Unlinked (l l' : Links) (k₀ : QueueId) : Prop :=
  ∀ k, (l'.queue k).count = if k = k₀ then unlinkCount (l.queue k).count else (l.queue k).count

theorem unlink_count (l : Links) (k : QueueId) (p : Slot) : Unlinked l (l.unlink k p) k := by
  intro k'
  rw [unlink_queue]
  by_cases hk' : k' = k
  · subst hk'
    simp
  · simp [hk']

theorem unlink_links_self (l : Links) (k : QueueId) (p : Slot) :
    (l.unlink k p).next p = none ∧ (l.unlink k p).prev p = none := by
  rw [unlink_next, unlink_prev]
  simp

/-- **Taking a process out of the queue it is in.** -/
theorem unlink_mem (h : Threaded l noAfter qs) (hk : qs k = a ++ p :: b) :
    Threaded (l.unlink k p) noAfter (update qs k (a ++ b)) := by
  have hq := h.queue k
  rw [hk] at hq
  obtain ⟨-, hprev, hnext, -⟩ := linked_append.mp hq.linked
  rw [Option.or_none] at hprev
  have hnext : l.next p = b.head? := by rw [hnext]; exact Option.or_none
  obtain ⟨hpa, hnd⟩ := List.nodup_cons.mp (List.nodup_middle.mp hq.nodup)
  have hsub : ∀ y ∈ a ++ b, y ∈ qs k ∨ ∀ k', y ∉ qs k' := fun y hy => by
    rw [hk]
    refine .inl ?_
    simp only [List.mem_append, List.mem_cons] at hy ⊢
    tauto
  have hney : ∀ y ∈ a ++ b, y ≠ p := fun y hy he => hpa (he ▸ hy)
  have hother : ∀ k', k' ≠ k → ∀ y ∈ qs k', y ∉ a ++ p :: b := fun k' hk' y hy hm =>
    hk' (h.disjoint y _ _ hy (hk ▸ hm))
  refine h.edit (k := k) ?_ hsub (fun k' hk' => ?_) (fun k' hk' y hy => ?_)
  · rw [unlink_queue, update_self]
    have hun : IsQueue (l.unlink k p).next (l.unlink k p).prev (noAfter k)
        (if a = [] then b.head? else (l.queue k).head)
        (if b = [] then a.getLast? else (l.queue k).tail) (a ++ b) := by
      refine hq.unlink (fun t ht => ?_) (fun y hy hne => ?_) (fun t ht => ?_) fun y hy hne => ?_
      · rw [unlink_next, if_neg (hney t (List.mem_append_left _ (List.mem_of_getLast? ht))),
          if_pos (hprev.trans ht), hnext]
        exact Option.or_none.symm
      · rw [unlink_next, if_neg (hney y hy), if_neg (fun he => hne (hprev.symm.trans he))]
      · rw [unlink_prev, if_neg (hney t (List.mem_append_right _ (List.mem_of_head? ht))),
          if_pos (hnext.trans ht), hprev]
      · rw [unlink_prev, if_neg (hney y hy), if_neg (fun he => hne (hnext.symm.trans he))]
    have hends : (if l.prev p = none then l.next p else (l.queue k).head) =
          (if a = [] then b.head? else (l.queue k).head) ∧
        (if l.next p = none then l.prev p else (l.queue k).tail) =
          if b = [] then a.getLast? else (l.queue k).tail := by
      rw [hprev, hnext]
      simp only [List.getLast?_eq_none_iff, List.head?_eq_none_iff, and_self]
    rw [hends.1, hends.2]
    exact hun
  · rw [unlink_queue, update_of_ne hk']
    exact ⟨rfl, rfl, rfl⟩
  · have hy' := hother k' hk' y hy
    have hyp : y ≠ p := fun he => hy' (by simp [he])
    rw [unlink_next, unlink_prev, if_neg hyp, if_neg hyp, if_neg (fun he => ?_),
      if_neg (fun he => ?_)]
    · exact ⟨rfl, rfl⟩
    · rw [hnext] at he
      exact hy' (List.mem_append_right _ (List.mem_cons_of_mem _ (List.mem_of_head? he)))
    · rw [hprev] at he
      exact hy' (List.mem_append_left _ (List.mem_of_getLast? he))

/-- **A process that has just been taken off the head is taken out again**: the list stays. -/
theorem unlink_popped (h : Threaded l noAfter qs) (hp : ∀ k, p ∉ qs k) (hprev : l.prev p = none)
    (hnext : l.next p = (qs k).head?) : Threaded (l.unlink k p) noAfter qs := by
  have hq := h.queue k
  have hself : update qs k (qs k) = qs := update_eq_self _ _
  rw [← hself]
  have hlinks : ∀ k', ∀ y ∈ qs k', (l.unlink k p).next y = l.next y ∧
      (l.unlink k p).prev y = l.prev y := fun k' y hy => by
    have hyp := ne_of_mem hp hy
    rw [unlink_next, unlink_prev, if_neg hyp, if_neg hyp, hprev, if_neg (by simp)]
    refine ⟨rfl, ?_⟩
    split
    · rename_i he
      rw [hnext] at he
      exact (hq.head_prev (hq.head_eq.trans he)).symm
    · rfl
  refine h.edit (k := k) ?_ (fun y hy => .inl hy) (fun k' hk' => ?_) fun k' _ => hlinks k'
  · rw [unlink_queue, update_self, hprev, hnext]
    have h1 := hq.congr (fun y hy => (hlinks k y hy).1) fun y hy => (hlinks k y hy).2
    have hhead : (qs k).head? = (l.queue k).head := hq.head_eq.symm
    simp only [if_true, hhead]
    by_cases hnil : (l.queue k).head = none
    · have htail : (l.queue k).tail = none := hq.tail_none_iff.mpr (hq.head_none_iff.mp hnil)
      rw [if_pos hnil, ← htail]
      exact h1
    · rw [if_neg hnil]
      exact h1
  · rw [unlink_queue, update_of_ne hk']
    exact ⟨rfl, rfl, rfl⟩

/-- **A process without neighbours is taken out of a queue it is not in**: the whole queue is
lost. -/
theorem unlink_alone (h : Threaded l noAfter qs) (hp : ∀ k, p ∉ qs k) (hprev : l.prev p = none)
    (hnext : l.next p = none) : Threaded (l.unlink k p) noAfter (update qs k []) := by
  refine h.edit (k := k) ?_ (by simp) (fun k' hk' => ?_) fun k' _ y hy => ?_
  · rw [unlink_queue, update_self, hprev, hnext]
    exact isQueue_nil.mpr ⟨rfl, rfl⟩
  · rw [unlink_queue, update_of_ne hk']
    exact ⟨rfl, rfl, rfl⟩
  · have hyp := ne_of_mem hp hy
    rw [unlink_next, unlink_prev, if_neg hyp, if_neg hyp, hprev, hnext]
    exact ⟨rfl, rfl⟩

end OSCompas.Scheduler
