import OSCompas.Scheduler.Effects
import Mathlib.Data.Fintype.Card

/-!
# The scheduler over lists of processes

The abstract scheduler keeps five lists of processes.  This module says what the edits of the links
make of them: an addition, the removal of a head, and the switch.

* `State.list` — the processes met from the head of a queue on;
* `Shape s qs` — the queues of `s` are the lists `qs`, and every process is in its own queue;
* `Counted` — the counts are right;
* `Popped` — the state once the head of a list was taken off.

Principal results: `add_shape`, `pop_shape`, `selectNext_shape` and `switch_popped`.
-/

set_option autoImplicit false

namespace OSCompas.Scheduler

open Function Intrusive

/-- The processes of every queue, in the order of service. -/
abbrev Queues := QueueId → List Slot

/-- Follow the links for at most `n` processes. -/
def follow (next : Slot → Option Slot) : Nat → Option Slot → List Slot
  | 0, _ => []
  | _ + 1, none => []
  | n + 1, some x => x :: follow next n (next x)

/-- The processes met from the head of the queue `k` on. -/
def State.list (s : State) : Queues := fun k =>
  follow s.links.next MAX_PROCESSES (s.links.queue k).head

/-- The queues of `s` are the lists `qs`. -/
structure Shape (s : State) (qs : Queues) : Prop where
  threaded : Threaded s.links noAfter qs
  home : ∀ k p, p ∈ qs k → s.homeQueue p = k

/-- Every count is the number of processes. -/
def Counted (l : Links) (qs : Queues) : Prop := ∀ k, (l.queue k).count.toNat = (qs k).length

/-- `p` is in some queue. -/
def OnList (qs : Queues) (p : Slot) : Prop := ∃ k, p ∈ qs k

/-- `p` is last in the queue `k`. -/
def push (qs : Queues) (k : QueueId) (p : Slot) : Queues := update qs k (qs k ++ [p])

variable {s s' s₁ s₂ : State} {l l' : Links} {qs : Queues} {k k' : QueueId}
variable {p x c i : Slot} {xs : List Slot} {o : Option Slot}

/-! ## Lists -/

theorem follow_linked {next prev : Slot → Option Slot} {n : Nat} (hn : xs.length ≤ n)
    (h : Linked next prev o none xs) : follow next n xs.head? = xs := by
  induction xs generalizing n o with
  | nil => cases n <;> rfl
  | cons x xs ih =>
    obtain ⟨-, h2, h3⟩ := h
    cases n with
    | zero => simp at hn
    | succ n =>
      rw [Option.or_none] at h2
      simp only [List.head?_cons, follow, h2]
      rw [ih (by simpa using hn) h3]

/-- There are no more processes than slots. -/
theorem length_le_of_nodup (h : xs.Nodup) : xs.length ≤ 64 := by
  simpa using h.length_le_card

theorem Shape.list (h : Shape s qs) : s.list = qs := by
  funext k
  have hq := h.threaded.queue k
  unfold State.list
  rw [hq.head_eq]
  exact follow_linked (length_le_of_nodup hq.nodup) hq.linked

theorem Shape.onList_iff (h : Shape s qs) : OnList qs p ↔ p ∈ qs (s.homeQueue p) := by
  constructor
  · rintro ⟨k, hk⟩
    rwa [h.home k p hk]
  · intro hp
    exact ⟨_, hp⟩

theorem Shape.notMem (h : Shape s qs) (hp : p ∉ qs (s.homeQueue p)) (k : QueueId) : p ∉ qs k :=
  fun hk => hp (h.onList_iff.mp ⟨k, hk⟩)

/-- Neither the links nor the queue of a process in a list change. -/
theorem Shape.congr (h : Shape s qs) (hl : s'.links = s.links)
    (hh : ∀ p, OnList qs p → s'.homeQueue p = s.homeQueue p) : Shape s' qs :=
  ⟨hl ▸ h.threaded, fun k p hp => (hh p ⟨k, hp⟩).trans (h.home k p hp)⟩

theorem Shape.table (h : Shape s qs) (hl : s'.links = s.links) (hp : SameProcs s s') :
    Shape s' qs :=
  h.congr hl fun p _ => homeQueue_congr hp.config (hp.priority p)

theorem Shape.init (config : Config) : Shape (schedulerInit config) fun _ => [] :=
  ⟨Threaded.init, fun _ _ h => absurd h (by simp)⟩

theorem onList_push : OnList (push qs k c) p ↔ OnList qs p ∨ p = c := by
  unfold OnList push
  constructor
  · rintro ⟨k', hk'⟩
    by_cases he : k' = k
    · subst he
      rw [update_self, List.mem_append, List.mem_singleton] at hk'
      exact hk'.imp (fun h => ⟨_, h⟩) id
    · rw [update_of_ne he] at hk'
      exact .inl ⟨k', hk'⟩
  · rintro (⟨k', hk'⟩ | rfl)
    · by_cases he : k' = k
      · subst he
        exact ⟨k', by simp [hk']⟩
      · exact ⟨k', by rwa [update_of_ne he]⟩
    · exact ⟨k, by simp⟩

/-- Replacing the list of one queue. -/
theorem onList_update {after : QueueId → Option Slot} (h : Threaded l after qs)
    (hsub : ∀ y ∈ xs, y ∈ qs k) :
    OnList (update qs k xs) p ↔ OnList qs p ∧ (p ∈ qs k → p ∈ xs) := by
  constructor
  · rintro ⟨k', hk'⟩
    by_cases he : k' = k
    · subst he
      rw [update_self] at hk'
      exact ⟨⟨k', hsub p hk'⟩, fun _ => hk'⟩
    · rw [update_of_ne he] at hk'
      refine ⟨⟨k', hk'⟩, fun hk => absurd (h.disjoint p _ _ hk' hk) he⟩
  · rintro ⟨⟨k', hk'⟩, hk⟩
    by_cases he : k' = k
    · subst he
      exact ⟨k', by rw [update_self]; exact hk hk'⟩
    · exact ⟨k', by rwa [update_of_ne he]⟩

/-! ## Counts -/

theorem Counted.add (h : Counted l qs) (ha : Added l l' k) (hlen : (qs k).length ≤ 64) :
    Counted l' (push qs k p) := by
  intro k'
  have hk := h k'
  rw [ha k']
  unfold push
  by_cases he : k' = k
  · subst he
    rw [if_pos rfl, update_self, List.length_append, List.length_singleton, UInt32.toNat_add]
    show _ % 2 ^ 32 = _
    rw [hk]
    exact Nat.mod_eq_of_lt (by show _ + 1 < _; omega)
  · rw [if_neg he, update_of_ne he]
    exact hk

theorem Counted.take (h : Counted l qs) (ht : Taken l l' k) (hk : qs k = x :: xs) :
    Counted l' (update qs k xs) := by
  intro k'
  have hk' := h k'
  rw [ht k']
  by_cases he : k' = k
  · subst he
    have hpos : 1 ≤ (l.queue k').count := by
      rw [UInt32.le_iff_toNat_le, hk', hk]
      simp
    rw [if_pos rfl, update_self, UInt32.toNat_sub_of_le _ _ hpos, hk', hk]
    simp
  · rw [if_neg he, update_of_ne he]
    exact hk'

theorem unlinkCount_toNat (n : UInt32) : (unlinkCount n).toNat = n.toNat - 1 := by
  unfold unlinkCount
  split
  · rename_i hpos
    have h1 : 1 ≤ n := by
      rw [gt_iff_lt, UInt32.lt_iff_toNat_lt] at hpos
      rw [UInt32.le_iff_toNat_le]
      exact hpos
    rw [UInt32.toNat_sub_of_le _ _ h1]
    rfl
  · rename_i hpos
    rw [gt_iff_lt, UInt32.lt_iff_toNat_lt] at hpos
    have h0 : (0 : UInt32).toNat = 0 := rfl
    omega

/-- The guarded decrement fits a list that got one shorter, or stayed empty. -/
theorem Counted.unlink (h : Counted l qs) (hu : Unlinked l l' k)
    (hlen : xs.length = (qs k).length - 1) : Counted l' (update qs k xs) := by
  intro k'
  have hk' := h k'
  rw [hu k']
  by_cases he : k' = k
  · subst he
    rw [if_pos rfl, update_self, unlinkCount_toNat, hk', hlen]
  · rw [if_neg he, update_of_ne he]
    exact hk'

/-! ## Adding and taking -/

/-- `add_to_ready_queue` on a process that is in no list. -/
theorem add_shape (h : Shape s qs) (hp : p ∉ qs (s.homeQueue p))
    (ha : addToReadyQueue s p = some s') :
    Shape s' (push qs (s.homeQueue p) p) ∧ Added s.links s'.links (s.homeQueue p) ∧
      ∀ y, y ≠ p → y ∉ qs (s.homeQueue p) →
        s'.links.next y = s.links.next y ∧ s'.links.prev y = s.links.prev y := by
  obtain ⟨l, hl, rfl⟩ := addToReadyQueue_effect ha
  obtain ⟨l', h1, h2, h3⟩ := enqueue_spec h.threaded (h.notMem hp) (k := s.homeQueue p)
  obtain rfl := Option.some.inj (hl.symm.trans h1)
  refine ⟨⟨h2, fun k y hy => ?_⟩, h3, fun y hne hy => ?_⟩
  · rcases onList_push.mp ⟨k, hy⟩ with hy' | rfl
    · have hh : s.homeQueue y = k := by
        unfold push at hy
        by_cases hk : k = s.homeQueue p
        · subst hk
          rw [update_self, List.mem_append, List.mem_singleton] at hy
          rcases hy with hy | rfl
          · exact h.home _ y hy
          · rfl
        · rw [update_of_ne hk] at hy
          exact h.home k y hy
      exact hh
    · by_cases hk : k = s.homeQueue y
      · exact hk.symm
      · unfold push at hy
        rw [update_of_ne hk] at hy
        exact h.home k y hy
  · refine (enqueue_eq hl).2 y hne fun he => hy ?_
    exact (h.threaded.queue _).mem_of_tail he

/-- The process `x` was taken off the head of its queue. -/
structure Popped (s : State) (qs : Queues) (x : Slot) (xs : List Slot) (s' : State) : Prop where
  list : qs (s.homeQueue x) = x :: xs
  shape : Shape s' (update qs (s.homeQueue x) xs)
  taken : Taken s.links s'.links (s.homeQueue x)
  next : s'.links.next x = xs.head?
  prev : s'.links.prev x = none
  table : SameTable s s'

theorem Popped.notMem (h : Shape s qs) (hp : Popped s qs x xs s') (k : QueueId) :
    x ∉ update qs (s.homeQueue x) xs k := by
  have hnd := (h.threaded.queue (s.homeQueue x)).nodup
  rw [hp.list] at hnd
  intro hx
  have hmem := (onList_update h.threaded (by
    rw [hp.list]
    exact fun y => List.mem_cons_of_mem _)).mp ⟨k, hx⟩
  exact (List.nodup_cons.mp hnd).1 (hmem.2 (by simp [hp.list]))

/-- Taking off the head of the queue `k`. -/
theorem pop_shape (h : Shape s qs) (hk : qs k = x :: xs) :
    ∃ l, s.links.dequeue k = some (l, some x) ∧ Popped s qs x xs { s with links := l } := by
  have hx : s.homeQueue x = k := h.home k x (by simp [hk])
  obtain ⟨l, h1, h2, h3, h4, h5⟩ := dequeue_spec h.threaded hk rfl
  subst hx
  refine ⟨l, h1, hk, ⟨h2, fun k' y hy => ?_⟩, h3, h4, h5, .links s l⟩
  have hmem := (onList_update h.threaded (by
    rw [hk]
    exact fun z => List.mem_cons_of_mem _)).mp ⟨k', hy⟩
  by_cases he : k' = s.homeQueue x
  · subst he
    rw [update_self] at hy
    exact h.home _ y (by simp [hk, hy])
  · rw [update_of_ne he] at hy
    exact h.home k' y hy

/-! ## The policy -/

/-- `scheduler_rr_schedule` adds the current process back. -/
def State.readds (s : State) (c : Slot) : Prop :=
  s.config.type = .rr ∧ (s.pcb c).state = .ready

instance (s : State) (c : Slot) : Decidable (s.readds c) := inferInstanceAs (Decidable (_ ∧ _))

theorem SameProcs.home (h : SameProcs s s') (p : Slot) : s'.homeQueue p = s.homeQueue p :=
  homeQueue_congr h.config (h.priority p)

theorem SameProcs.unmanaged (h : SameProcs s s') (p : Slot) : s'.unmanaged p ↔ s.unmanaged p :=
  unmanaged_congr h.config (h.priority p)

/-- A stale count is corrected by one. -/
theorem fifoSchedule_shape (h : Shape s qs) (hs : fifoSchedule s = some (s₁, o)) :
    (o = none ∧ Shape s₁ qs ∧ (Counted s.links qs → Counted s₁.links qs)) ∨
      ∃ x xs, o = some x ∧ Popped s qs x xs s₁ := by
  rcases fifoSchedule_parts hs with ⟨-, rfl, rfl⟩ | ⟨h0, l, hd, rfl⟩
  · exact .inl ⟨rfl, h, id⟩
  · cases hk : qs .ready with
    | nil =>
      rw [dequeue_nil h.threaded hk] at hd
      cases hd
      refine .inl ⟨rfl, ⟨threaded_recount h.threaded hk, h.home⟩, fun hc => absurd ?_ h0⟩
      have hz := hc .ready
      rw [hk, List.length_nil] at hz
      exact UInt32.toNat_inj.mp hz
    | cons x xs =>
      obtain ⟨l', hd', hp⟩ := pop_shape h hk
      rw [hd] at hd'
      cases hd'
      exact .inr ⟨x, xs, rfl, hp⟩

theorem rrSchedule_shape (ht : s.config.type = .rr) (h : Shape s qs)
    (hs : rrSchedule s = some (s₁, o)) :
    (o = none ∧ Shape s₁ qs ∧ (Counted s.links qs → Counted s₁.links qs)) ∨
      ∃ x xs s₂, o = some x ∧ Popped s qs x xs s₂ ∧
        ((s₁ = s₂ ∧ ∀ c, s.current = some c → ¬ s.readds c) ∨
          ∃ c, s.current = some c ∧ s.readds c ∧ addToReadyQueue s₂ c = some s₁) := by
  obtain ⟨s₂, hf, hs₁⟩ := rrSchedule_parts hs
  rcases fifoSchedule_shape h hf with ⟨rfl, hsh⟩ | ⟨x, xs, rfl, hp⟩
  · rcases hs₁ with ⟨rfl, -⟩ | ⟨x, -, hx, -⟩
    · exact .inl ⟨rfl, hsh⟩
    · exact nomatch hx
  · refine .inr ⟨x, xs, s₂, rfl, hp, ?_⟩
    rcases hs₁ with ⟨rfl, hno⟩ | ⟨y, c, -, hc, hr, ha⟩
    · refine .inl ⟨rfl, fun c hc hr => hno x c rfl (hp.table.current.trans hc) ?_⟩
      exact (hp.table.state c).trans hr.2
    · refine .inr ⟨c, hp.table.current.symm.trans hc, ⟨ht, ?_⟩, ha⟩
      exact (hp.table.state c).symm.trans hr

theorem mlfqSchedule_shape (h : Shape s qs) (hs : mlfqSchedule s = some (s₁, o)) :
    (o = none ∧ s₁ = s) ∨ ∃ x xs, o = some x ∧ Popped s qs x xs s₁ := by
  rcases mlfqSchedule_parts hs with ⟨-, rfl, rfl⟩ | ⟨i, l, p, hi, hd, rfl, rfl⟩
  · exact .inl ⟨rfl, rfl⟩
  · cases hk : qs (.level i) with
    | nil =>
      rw [dequeue_nil h.threaded hk] at hd
      cases hd
    | cons x xs =>
      obtain ⟨l', hd', hp⟩ := pop_shape h hk
      rw [hd] at hd'
      cases hd'
      have hst : SameTable s { s with
          links := l
          pcb := update s.pcb p { s.pcb p with timeSlice := s.timeSlices i, timeInQueue := 0 } } :=
        (SameTable.links s l).trans (.pcb rfl rfl rfl)
      exact .inr ⟨p, xs, rfl, hp.list, ⟨hp.shape.threaded, fun k y hy =>
        (hst.toSameProcs.home y).trans (hp.shape.home k y hy)⟩, hp.taken, hp.next, hp.prev, hst⟩

/-- **The policy takes the head off a list**, and round robin adds a ready current process back. -/
theorem selectNext_shape (h : Shape s qs) (hs : selectNext s = some (s₁, o)) :
    (o = none ∧ Shape s₁ qs ∧ (Counted s.links qs → Counted s₁.links qs)) ∨
      ∃ x xs s₂, o = some x ∧ Popped s qs x xs s₂ ∧
        ((s₁ = s₂ ∧ ∀ c, s.current = some c → ¬ s.readds c) ∨
          ∃ c, s.current = some c ∧ s.readds c ∧ addToReadyQueue s₂ c = some s₁) := by
  have hother : s.config.type ≠ .rr → ∀ c, s.current = some c → ¬ s.readds c :=
    fun ht _ _ hr => ht hr.1
  unfold selectNext at hs
  split at hs
  · rename_i ht
    rcases fifoSchedule_shape h hs with hn | ⟨x, xs, ho, hp⟩
    · exact .inl hn
    · exact .inr ⟨x, xs, s₁, ho, hp, .inl ⟨rfl, hother (by simp [ht])⟩⟩
  · exact rrSchedule_shape ‹_› h hs
  · rename_i ht
    rcases mlfqSchedule_shape h hs with ⟨ho, rfl⟩ | ⟨x, xs, ho, hp⟩
    · exact .inl ⟨ho, h, id⟩
    · exact .inr ⟨x, xs, s₁, ho, hp, .inl ⟨rfl, hother (by simp [ht])⟩⟩
  · rename_i ht
    rcases fifoSchedule_shape h hs with hn | ⟨x, xs, ho, hp⟩
    · exact .inl hn
    · exact .inr ⟨x, xs, s₁, ho, hp, .inl ⟨rfl, hother (by simp [ht])⟩⟩

/-! ## The switch -/

theorem switchTo_links (s : State) (x : Slot) : (switchTo s x).links =
    if s.unmanaged x then s.links else s.links.unlink (s.homeQueue x) x := by
  have hst : SameProcs s { s with
      current := some x
      pcb := update s.pcb x { s.pcb x with
        state := .running, timeStarted := s.systemTicks, timeSliceUsed := 0 } } := by
    refine ⟨rfl, rfl, rfl, rfl, rfl, fun y => ?_, fun y => ?_⟩ <;>
    · by_cases hy : y = x
      · subst hy
        simp
      · simp [hy]
  unfold switchTo removeFromReadyQueue
  simp only [hst.unmanaged x]
  split
  · rfl
  · rw [hst.home x]

/-- The process to run has been taken off its list, and is taken out of it again. -/
theorem switch_popped (h : Shape s qs) (hx : ∀ k, x ∉ qs k) (hprev : s.links.prev x = none)
    (hnext : s.unmanaged x ∨ s.links.next x = (qs (s.homeQueue x)).head?) :
    Shape (switchTo s x) qs ∧ (Counted s.links qs → s.unmanaged x ∨ qs (s.homeQueue x) = [] →
      Counted (switchTo s x).links qs) := by
  have hp := (switchTo_effect s x).1
  by_cases hu : s.unmanaged x
  · have hl : (switchTo s x).links = s.links := by rw [switchTo_links, if_pos hu]
    exact ⟨h.table hl hp, fun hc _ => hl ▸ hc⟩
  · have hl : (switchTo s x).links = s.links.unlink (s.homeQueue x) x := by
      rw [switchTo_links, if_neg hu]
    refine ⟨⟨?_, fun k y hy => (hp.home y).trans (h.home k y hy)⟩, fun hc hone => ?_⟩
    · rw [hl]
      exact unlink_popped h.threaded hx hprev (hnext.resolve_left hu)
    · have hnil : qs (s.homeQueue x) = [] := hone.resolve_left hu
      have hself : update qs (s.homeQueue x) [] = qs := by rw [← hnil, update_eq_self]
      rw [hl, ← hself]
      exact hc.unlink (unlink_count _ _ _) (by rw [hnil]; rfl)

/-- The process to run has no neighbours: its list is lost. -/
theorem switch_alone (h : Shape s qs) (hx : ∀ k, x ∉ qs k) (hprev : s.links.prev x = none)
    (hnext : s.links.next x = none) (hu : ¬ s.unmanaged x) :
    Shape (switchTo s x) (update qs (s.homeQueue x) []) ∧
      (Counted s.links qs → (qs (s.homeQueue x)).length = 1 →
        Counted (switchTo s x).links (update qs (s.homeQueue x) [])) := by
  have hp := (switchTo_effect s x).1
  have hl : (switchTo s x).links = s.links.unlink (s.homeQueue x) x := by
    rw [switchTo_links, if_neg hu]
  refine ⟨⟨?_, fun k y hy => ?_⟩, fun hc hlen => ?_⟩
  · rw [hl]
    exact unlink_alone h.threaded hx hprev hnext
  · obtain ⟨hy', -⟩ := (onList_update h.threaded (by simp)).mp ⟨k, hy⟩
    obtain ⟨k', hk'⟩ := hy'
    by_cases hk : k = s.homeQueue x
    · rw [hk, update_self] at hy
      cases hy
    · rw [update_of_ne hk] at hy
      exact (hp.home y).trans (h.home k y hy)
  · rw [hl]
    exact hc.unlink (unlink_count _ _ _) (by rw [hlen]; rfl)

end OSCompas.Scheduler
