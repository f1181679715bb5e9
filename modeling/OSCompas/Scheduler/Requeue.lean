import OSCompas.Scheduler.Lists

/-!
# Adding a process and taking it out again

`add_to_ready_queue` cuts a priority off at the lowest level; `remove_from_ready_queue` returns
early on a priority that it would have to cut off.

* `WellFormed l qs` — the queues are the lists `qs`, with the right counts;
* `addAll` — a sequence of additions;
* `State.added s qs ps` — the lists after it;
* `Requeues` — a process that was added is taken out again, whatever was added since.

Principal results: `addAll_spec` and `requeues_iff`.
-/

set_option autoImplicit false

namespace OSCompas.Scheduler

open Function Intrusive

variable {s s' s₁ : State} {l : Links} {qs : Queues} {k : QueueId} {p x : Slot} {ps : List Slot}

/-! ## Additions -/

/-- The queues are the lists `qs`, with the right counts. -/
structure WellFormed (l : Links) (qs : Queues) : Prop where
  threaded : Threaded l noAfter qs
  counted : Counted l qs

/-- `add_to_ready_queue` for one process after the other. -/
def addAll : State → List Slot → Option State
  | s, [] => some s
  | s, p :: ps => (addToReadyQueue s p).bind fun s => addAll s ps

/-- The processes `ps` are at the ends of their queues, in order. -/
def State.added (s : State) (qs : Queues) (ps : List Slot) : Queues :=
  fun k => qs k ++ ps.filter (s.homeQueue · = k)

/-- Every process of `ps` comes once, and none is in a queue. -/
structure Outside (qs : Queues) (ps : List Slot) : Prop where
  nodup : ps.Nodup
  out : ∀ p ∈ ps, ∀ k, p ∉ qs k

theorem added_nil (s : State) (qs : Queues) : s.added qs [] = qs := by
  funext k
  simp [State.added]

theorem added_cons (s : State) (qs : Queues) (p : Slot) (ps : List Slot) :
    s.added qs (p :: ps) = s.added (push qs (s.homeQueue p) p) ps := by
  funext k
  unfold State.added push
  by_cases hk : s.homeQueue p = k
  · subst hk
    simp
  · simp [hk, Ne.symm hk]

/-- In its own queue the first process stands before those added after it. -/
theorem added_self (s : State) (qs : Queues) (p : Slot) (ps : List Slot) :
    s.added qs (p :: ps) (s.homeQueue p) =
      qs (s.homeQueue p) ++ p :: ps.filter (s.homeQueue · = s.homeQueue p) := by
  simp [State.added]

theorem added_congr (h : SameProcs s s') : s'.added = s.added := by
  funext qs ps k
  unfold State.added
  simp only [h.home]

theorem Outside.head (h : Outside qs (p :: ps)) (k : QueueId) : p ∉ qs k := h.out p (by simp) k

theorem Outside.tail (h : Outside qs (p :: ps)) : Outside (push qs k p) ps := by
  obtain ⟨hp, hnd⟩ := List.nodup_cons.mp h.nodup
  refine ⟨hnd, fun x hx k' hk' => ?_⟩
  rcases onList_push.mp ⟨k', hk'⟩ with ⟨k₀, hk₀⟩ | rfl
  · exact h.out x (List.mem_cons_of_mem p hx) k₀ hk₀
  · exact hp hx

/-- **One addition** to well-formed queues. -/
theorem add_wellFormed (h : WellFormed s.links qs) (hp : ∀ k, p ∉ qs k) :
    ∃ s', addToReadyQueue s p = some s' ∧ SameProcs s s' ∧
      WellFormed s'.links (push qs (s.homeQueue p) p) := by
  obtain ⟨l, hl, ht, hadd⟩ := enqueue_spec h.threaded hp (k := s.homeQueue p)
  refine ⟨{ s with links := l }, ?_, (SameTable.links s l).toSameProcs, ht, ?_⟩
  · unfold addToReadyQueue
    rw [hl]
    rfl
  · exact h.counted.add hadd (length_le_of_nodup (h.threaded.queue _).nodup)

/-- **Any sequence of additions** to well-formed queues. -/
theorem addAll_spec (h : WellFormed s.links qs) (hps : Outside qs ps) :
    ∃ s', addAll s ps = some s' ∧ SameProcs s s' ∧ WellFormed s'.links (s.added qs ps) := by
  induction ps generalizing s qs with
  | nil =>
    rw [added_nil]
    exact ⟨s, rfl, .refl s, h⟩
  | cons p ps ih =>
    obtain ⟨s₁, h1, hp₁, hw₁⟩ := add_wellFormed h hps.head
    obtain ⟨s₂, h2, hp₂, hw₂⟩ := ih hw₁ hps.tail
    rw [added_congr hp₁, ← added_cons] at hw₂
    refine ⟨s₂, ?_, hp₁.trans hp₂, hw₂⟩
    rw [addAll, h1, Option.bind_some, h2]

/-! ## The removal -/

/-- The processes `ps` were added after `p`, and `p` is taken out. -/
theorem remove_added (hm : ¬ s.unmanaged p) (h : WellFormed s.links (s.added qs (p :: ps))) :
    WellFormed (removeFromReadyQueue s p).links (s.added qs ps) ∧
      (removeFromReadyQueue s p).links.next p = none ∧
      (removeFromReadyQueue s p).links.prev p = none := by
  have hself := added_self s qs p ps
  have hlist : update (s.added qs (p :: ps)) (s.homeQueue p)
      (qs (s.homeQueue p) ++ ps.filter (s.homeQueue · = s.homeQueue p)) = s.added qs ps := by
    funext k
    by_cases hk : k = s.homeQueue p
    · subst hk
      rw [update_self]
      rfl
    · rw [update_of_ne hk]
      unfold State.added
      simp [Ne.symm hk]
  have hlinks : (removeFromReadyQueue s p).links = s.links.unlink (s.homeQueue p) p := by
    unfold removeFromReadyQueue
    rw [if_neg hm]
  rw [hlinks, ← hlist]
  refine ⟨⟨unlink_mem h.threaded hself, ?_⟩, unlink_links_self _ _ _⟩
  refine h.counted.unlink (unlink_count _ _ _) ?_
  rw [hself]
  simp

/-- **What is asked of the two functions**: `p` goes to the end of one queue, and after any further
additions it is taken out again, and nothing else. -/
def Requeues (s : State) (qs : Queues) (p : Slot) (ps : List Slot) : Prop :=
  ∃ s₁ s₂, addToReadyQueue s p = some s₁ ∧ (∃ k, WellFormed s₁.links (push qs k p)) ∧
    addAll s₁ ps = some s₂ ∧ WellFormed (removeFromReadyQueue s₂ p).links (s.added qs ps) ∧
    (removeFromReadyQueue s₂ p).links.next p = none ∧
    (removeFromReadyQueue s₂ p).links.prev p = none

/-- **They agree exactly if** the priority is one that is not cut off. -/
theorem requeues_iff (h : WellFormed s.links qs) (hps : Outside qs (p :: ps)) :
    Requeues s qs p ps ↔ ¬ s.unmanaged p := by
  obtain ⟨s₁, h1, hp₁, hw₁⟩ := add_wellFormed h hps.head
  obtain ⟨s₂, h2, hp₂, hw₂⟩ := addAll_spec hw₁ hps.tail
  have hp : SameProcs s s₂ := hp₁.trans hp₂
  rw [added_congr hp₁, ← added_cons] at hw₂
  constructor
  · rintro ⟨t₁, t₂, ht₁, -, ht₂, hrest, -⟩ hu
    obtain rfl := Option.some.inj (h1.symm.trans ht₁)
    obtain rfl := Option.some.inj (h2.symm.trans ht₂)
    -- nothing was taken out, so `p` still is in its queue
    have hkeep : removeFromReadyQueue s₂ p = s₂ := if_pos ((hp.unmanaged p).mpr hu)
    rw [hkeep] at hrest
    have hq := (hw₂.threaded.queue (s.homeQueue p)).unique (hrest.threaded.queue (s.homeQueue p))
    have hlen := congrArg List.length hq
    rw [added_self] at hlen
    simp [State.added] at hlen
  · intro hm
    have hm₂ : ¬ s₂.unmanaged p := fun hu => hm ((hp.unmanaged p).mp hu)
    rw [← added_congr hp] at hw₂
    obtain ⟨hw, hn⟩ := remove_added hm₂ hw₂
    rw [added_congr hp] at hw
    exact ⟨s₁, s₂, h1, ⟨_, hw₁⟩, h2, hw, hn⟩

/-- Three processes under round robin, and the first is taken out again. -/
theorem requeues_iff_three : Requeues (schedulerInit ⟨.rr, 10, 1, 0, 0⟩) (fun _ => []) 0 [1, 2] ↔
    ¬ (schedulerInit ⟨.rr, 10, 1, 0, 0⟩).unmanaged 0 :=
  requeues_iff ⟨Threaded.init, fun _ => rfl⟩ ⟨by simp, by simp⟩

/-- A PCB as `scheduler_create_process` fills it in for the priority 4. -/
def lowPcb : Pcb := { Pcb.zero with pid := 1, state := .ready, priority := 4 }

/-- A process of priority 4 under MLFQ is added to the lowest level and stays there. -/
theorem remove_keeps_low : ¬ ∀ s qs p ps, WellFormed s.links qs → Outside qs (p :: ps) →
    Requeues s qs p ps := by
  intro hall
  let s : State := { schedulerInit ⟨.mlfq, 10, 1, 4, 100⟩ with
    pcb := update (fun _ => Pcb.zero) 0 lowPcb }
  have hx : (addToReadyQueue s 0).map
      (fun s => ((removeFromReadyQueue s 0).links.queue (.level 3)).head) = some (some 0) := by
    decide +kernel
  obtain ⟨s₁, s₂, h1, -, h2, hw, -⟩ := hall s (fun _ => []) 0 []
    ⟨Threaded.init, fun _ => rfl⟩ ⟨by simp, by simp⟩
  cases h2
  rw [h1, Option.map_some, Option.some.injEq] at hx
  have hempty := (hw.threaded.queue (.level 3)).head_none_iff.mpr rfl
  rw [hx] at hempty
  cases hempty

end OSCompas.Scheduler
