import OSCompas.Scheduler.Line
import OSCompas.Scheduler.Mlfq

/-!
# The priority boost

Which processes `scheduler_mlfq_boost_priority` reaches: those it meets in the queues of the levels
1 to 3, and no others.

* `Levels l xs` — the levels below the top are the lists `xs`, rightly counted, which share nothing
  with each other or with the end of level 0;
* `Sealed H l`, `Apart H l l'` — level 0 is cut off from the processes in `H`, and an edit of it
  leaves these alone;
* `BoostSound`, `Reached` — what the levels have to be before a tick, and whom a boost then reaches.

Principal results: `boostPriority_levels` and `boosted_iff`.
-/

set_option autoImplicit false

namespace OSCompas.Scheduler

open Function Runs

variable {s s' s₁ : State} {l l' : Links} {k : QueueId} {c p x y : Slot} {xs ys : List Slot}
variable {i j : Fin MAX_PRIORITY_LEVELS} {config : Config}

/-! ## The loops -/

/-- No process is in two of the lists below the top. -/
def Parted (xs : Fin MAX_PRIORITY_LEVELS → List Slot) : Prop :=
  ∀ i j, i ≠ 0 → j ≠ 0 → ∀ p ∈ xs i, p ∈ xs j → i = j

/-- The levels below the top are the lists `xs`, which share nothing with each other or with the
end of level 0. -/
structure Levels (l : Links) (xs : Fin MAX_PRIORITY_LEVELS → List Slot) : Prop where
  lined : ∀ j, j ≠ 0 → Lined l (.level j) (xs j)
  count : ∀ j, j ≠ 0 → (l.queue (.level j)).count.toNat = (xs j).length
  disjoint : Parted xs
  tail : ∀ t ∈ (l.queue (.level 0)).tail, ∀ j, j ≠ 0 → t ∉ xs j

variable {zs : Fin MAX_PRIORITY_LEVELS → List Slot}

theorem level_ne (h : i ≠ j) : QueueId.level i ≠ .level j := fun he => h (QueueId.level.inj he)

/-- **One round**: the first process of the level gets priority 0 and ends level 0. -/
theorem boostOne_levels (h : Levels s.links zs) (hj : j ≠ 0) (hz : zs j = x :: xs)
    (hs : boostOne s j = some s') : Levels s'.links (update zs j xs) ∧
      ∀ p, (s'.pcb p).priority = if p = x then 0 else (s.pcb p).priority := by
  have hlined := h.lined j hj
  rw [hz] at hlined
  obtain ⟨l₁, hd, hl₁, hc₁, hn₁, -, -, hq₁⟩ := hlined.dequeue
  unfold boostOne at hs
  simp only [hd, Option.bind_eq_bind, Option.bind_some] at hs
  obtain ⟨l₂, ha, hs⟩ := Option.bind_eq_some_iff.mp hs
  cases hs
  obtain ⟨hn₂, ht₂, hq₂⟩ := append_next ha
  have hx : x ∉ xs := (List.nodup_cons.mp hlined.nodup).1
  have hsub : ∀ i p, p ∈ update zs j xs i → p ∈ zs i := by
    intro i p hp
    by_cases hi : i = j
    · subst hi
      rw [update_self] at hp
      rw [hz]
      exact List.mem_cons_of_mem x hp
    · rwa [update_of_ne hi] at hp
  -- the end of level 0 is in none of the lists, so none of their successors changes
  have htail : ∀ i, i ≠ 0 → ∀ p ∈ update zs j xs i, (l₁.queue (.level 0)).tail ≠ some p := by
    intro i hi p hp ht
    rw [hq₁ _ (level_ne hj.symm)] at ht
    exact h.tail p ht i hi (hsub i p hp)
  refine ⟨⟨fun i hi => ?_, fun i hi => ?_, ?_, fun t ht i hi hp => ?_⟩, fun p => ?_⟩
  · have hl : Lined l₁ (.level i) (update zs j xs i) := by
      by_cases hij : i = j
      · subst hij
        rw [update_self]
        exact hl₁
      · have hq := hq₁ _ (level_ne hij)
        rw [update_of_ne hij]
        apply (h.lined i hi).congr (by rw [hq]) (by rw [hq])
        intro p _ _
        rw [hn₁]
    have hq := hq₂ _ (level_ne hi)
    apply hl.congr (by rw [hq]) (by rw [hq])
    intro p hp _
    exact hn₂ p (htail i hi p hp)
  · have hcount := h.count i hi
    show (l₂.queue (.level i)).count.toNat = _
    rw [hq₂ _ (level_ne hi)]
    by_cases hij : i = j
    · subst hij
      rw [hz, List.length_cons] at hcount
      have h1 : (1 : UInt32) ≤ (s.links.queue (.level i)).count := by
        rw [UInt32.le_iff_toNat_le, hcount]
        show 1 ≤ _
        omega
      rw [update_self, hc₁, UInt32.toNat_sub_of_le _ _ h1, hcount]
      rfl
    · rw [update_of_ne hij, hq₁ _ (level_ne hij)]
      exact hcount
  · intro i i' hi hi' p hp hp'
    exact h.disjoint i i' hi hi' p (hsub i p hp) (hsub i' p hp')
  · obtain rfl : x = t := Option.some.inj (ht₂.symm.trans ht)
    have hij : i = j := h.disjoint i j hi hj x (hsub i x hp) (by simp [hz])
    rw [hij, update_self] at hp
    exact hx hp
  · by_cases hp : p = x
    · simp [hp]
    · simp [hp]

/-- The loop at a level reaches its list. -/
theorem boostLevel_levels (h : Levels s.links zs) (hj : j ≠ 0)
    (hs : boostLevel j (s.links.queue (.level j)).count.toNat s = some s') :
    Levels s'.links (update zs j []) ∧
      ∀ p, (s'.pcb p).priority = if p ∈ zs j then 0 else (s.pcb p).priority := by
  rw [h.count j hj] at hs
  generalize hz : zs j = xs at hs
  induction xs generalizing s zs with
  | nil =>
    cases hs
    rw [← hz, update_eq_self]
    exact ⟨h, fun p => by simp [hz]⟩
  | cons x xs ih =>
    obtain ⟨s₁, h1, h2⟩ := Option.bind_eq_some_iff.mp hs
    obtain ⟨hl, hp₁⟩ := boostOne_levels h hj hz h1
    obtain ⟨hl', hp₂⟩ := ih hl (update_self ..) h2
    rw [update_idem] at hl'
    refine ⟨hl', fun p => ?_⟩
    rw [hp₂, hp₁]
    by_cases hpx : p = x
    · simp [hpx]
    · simp [hpx]

/-- **The boost reaches the processes of the levels below the top, and no others.** -/
theorem boostPriority_levels (h : Levels s.links zs) (hs : boostPriority s = some s') (p : Slot) :
    (s'.pcb p).priority = if ∃ j, j ≠ 0 ∧ p ∈ zs j then 0 else (s.pcb p).priority := by
  unfold boostPriority at hs
  obtain ⟨s₁, h1, hs⟩ := Option.bind_eq_some_iff.mp hs
  obtain ⟨s₂, h2, h3⟩ := Option.bind_eq_some_iff.mp hs
  obtain ⟨hl₁, hp₁⟩ := boostLevel_levels h (by decide) h1
  obtain ⟨hl₂, hp₂⟩ := boostLevel_levels hl₁ (by decide) h2
  obtain ⟨-, hp₃⟩ := boostLevel_levels hl₂ (by decide) h3
  rw [hp₃, hp₂, hp₁]
  have hlow : (∃ j : Fin MAX_PRIORITY_LEVELS, j ≠ 0 ∧ p ∈ zs j) ↔
      p ∈ zs 3 ∨ p ∈ zs 2 ∨ p ∈ zs 1 := by
    constructor
    · rintro ⟨j, hj, hp⟩
      match j, hj, hp with
      | 1, _, hp => exact .inr (.inr hp)
      | 2, _, hp => exact .inr (.inl hp)
      | 3, _, hp => exact .inl hp
    · rintro (hp | hp | hp)
      · exact ⟨3, by decide, hp⟩
      · exact ⟨2, by decide, hp⟩
      · exact ⟨1, by decide, hp⟩
  have h2 : update zs 1 [] 2 = zs 2 := rfl
  have h3 : update (update zs 1 []) 2 [] 3 = zs 3 := rfl
  rw [h2, h3, if_congr hlow rfl rfl]
  by_cases h₃ : p ∈ zs 3
  · simp [h₃]
  · by_cases h₂ : p ∈ zs 2
    · simp [h₂, h₃]
    · simp [h₂, h₃]

/-! ## Level 0 -/

variable {H : Slot → Prop} {f : Slot → Option Slot} {v : Option Slot}

/-- The links lead nowhere into `H` from outside. -/
def Avoids (H : Slot → Prop) (f : Slot → Option Slot) : Prop := ∀ p, ¬ H p → ∀ q ∈ f p, ¬ H q

/-- Level 0 is cut off from the processes in `H`. -/
structure Sealed (H : Slot → Prop) (l : Links) : Prop where
  head : ∀ p ∈ (l.queue (.level 0)).head, ¬ H p
  tail : ∀ p ∈ (l.queue (.level 0)).tail, ¬ H p
  next : Avoids H l.next
  prev : Avoids H l.prev

/-- The lower levels and the successors of the processes in `H` are the same. -/
structure Apart (H : Slot → Prop) (l l' : Links) : Prop where
  queue : ∀ j, j ≠ 0 → l'.queue (.level j) = l.queue (.level j)
  next : ∀ p, H p → l'.next p = l.next p

theorem Apart.refl (H : Slot → Prop) (l : Links) : Apart H l l := ⟨fun _ _ => rfl, fun _ _ => rfl⟩

theorem Apart.trans {l'' : Links} (h : Apart H l l') (h' : Apart H l' l'') : Apart H l l'' :=
  ⟨fun j hj => (h'.queue j hj).trans (h.queue j hj), fun p hp => (h'.next p hp).trans (h.next p hp)⟩

theorem Avoids.update (h : Avoids H f) (hv : ∀ q, v = some q → ¬ H q) (p : Slot) :
    Avoids H (update f p v) := by
  intro y hy q hq
  by_cases he : y = p
  · rw [he, update_self] at hq
    exact hv q hq
  · rw [update_of_ne he] at hq
    exact h y hy q hq

theorem update_apart (hp : ¬ H p) (hy : H y) : update f p v y = f y :=
  update_of_ne (fun he : y = p => hp (he ▸ hy)) _ _

theorem Sealed.enqueue (h : Sealed H l) (hp : ¬ H p) (he : l.enqueue (.level 0) p = some l') :
    Sealed H l' ∧ Apart H l l' := by
  have hnone : ∀ q, (none : Option Slot) = some q → ¬ H q := fun q hq => nomatch hq
  have hsome : ∀ q, some p = some q → ¬ H q := by
    intro q hq
    rw [← Option.some.inj hq]
    exact hp
  have hq := (enqueue_eq he).1
  have hqueue : ∀ j, j ≠ 0 → l'.queue (.level j) = l.queue (.level j) := by
    intro j hj
    rw [hq, update_of_ne (level_ne hj)]
  unfold Links.enqueue Links.append at he
  dsimp only at he
  split at he
  · cases he
    refine ⟨⟨?_, ?_, h.next.update hnone p, h.prev.update hnone p⟩, hqueue, fun y hy => ?_⟩
    · simpa using hp
    · simpa using hp
    · exact update_apart hp hy
  · rename_i a ha
    split at he
    · cases he
    · rename_i t ht
      cases he
      have hta : ¬ H t := h.tail t ht
      have htv : ∀ q, some t = some q → ¬ H q := by
        intro q hq
        rw [← Option.some.inj hq]
        exact hta
      refine ⟨⟨?_, ?_, (h.next.update hnone p).update hsome t,
        (h.prev.update hnone p).update htv p⟩, hqueue, fun y hy => ?_⟩
      · simpa using h.head a ha
      · simpa using hp
      · exact (update_apart hta hy).trans (update_apart hp hy)

theorem Sealed.dequeue {o : Option Slot} (h : Sealed H l)
    (hd : l.dequeue (.level 0) = some (l', o)) : Sealed H l' ∧ Apart H l l' := by
  have hnone : ∀ q, (none : Option Slot) = some q → ¬ H q := fun q hq => nomatch hq
  unfold Links.dequeue at hd
  dsimp only at hd
  split at hd
  · cases hd
    refine ⟨⟨?_, ?_, h.next, h.prev⟩, fun j hj => update_of_ne (level_ne hj) _ _, fun _ _ => rfl⟩
    · simp
    · simp
  · split at hd
    · cases hd
    · rename_i a ha
      cases hd
      refine ⟨⟨?_, ?_, h.next, ?_⟩, fun j hj => update_of_ne (level_ne hj) _ _, fun _ _ => rfl⟩
      · intro q hq
        simp only [update_self] at hq
        exact h.next a (h.head a ha) q hq
      · intro q hq
        simp only [update_self] at hq
        exact h.tail q hq
      · dsimp only
        split
        · exact h.prev
        · exact h.prev.update hnone _

theorem Sealed.unlink (h : Sealed H l) (hp : ¬ H p) :
    Sealed H (l.unlink (.level 0) p) ∧ Apart H l (l.unlink (.level 0) p) := by
  have hnone : ∀ q, (none : Option Slot) = some q → ¬ H q := fun q hq => nomatch hq
  have hnext : ∀ q, l.next p = some q → ¬ H q := h.next p hp
  have hprev : ∀ q, l.prev p = some q → ¬ H q := h.prev p hp
  have happ : ∀ y, H y → (l.unlink (.level 0) p).next y = l.next y := by
    intro y hy
    rw [unlink_next, if_neg (fun he : y = p => hp (he ▸ hy)), if_neg (fun he => hprev y he hy)]
  rw [unlink_eq] at happ ⊢
  refine ⟨⟨fun q hq => ?_, fun q hq => ?_, ?_, ?_⟩, fun j hj => update_of_ne (level_ne hj) _ _,
    happ⟩
  · simp only [update_self] at hq
    split at hq
    · exact hnext q hq
    · exact h.head q hq
  · simp only [update_self] at hq
    split at hq
    · exact hprev q hq
    · exact h.tail q hq
  · apply Avoids.update _ hnone
    split
    · exact h.next.update hnext _
    · exact h.next
  · apply Avoids.update _ hnone
    split
    · exact h.prev.update hprev _
    · exact h.prev

/-- Lists of processes in `H` survive an edit of level 0. -/
theorem Levels.apart (h : Levels l zs) (ha : Apart H l l') (hs : Sealed H l')
    (hz : ∀ j p, j ≠ 0 → p ∈ zs j → H p) : Levels l' zs := by
  constructor
  · intro j hj
    have hq := ha.queue j hj
    apply (h.lined j hj).congr (by rw [hq]) (by rw [hq])
    intro p hp _
    exact ha.next p (hz j p hj hp)
  · intro j hj
    rw [ha.queue j hj]
    exact h.count j hj
  · exact h.disjoint
  · intro t ht j hj htj
    exact hs.tail t ht (hz j t hj htj)

/-! ## A slice that ends at the top -/

theorem homeQueue_top (ht : s.config.type = .mlfq) (hp : (s.pcb p).priority = 0) :
    s.homeQueue p = .level 0 := by
  unfold State.homeQueue
  rw [if_pos ht]
  simp [hp]

theorem firstLevel_top (h : (s.links.queue (.level 0)).count ≠ 0) : s.firstLevel = some 0 := by
  have hpos := (count_pos_iff _).mpr h
  have hlist : List.finRange MAX_PRIORITY_LEVELS = [0, 1, 2, 3] := rfl
  unfold State.firstLevel
  rw [hlist, List.find?_cons_of_pos]
  exact decide_eq_true hpos

/-- The search takes the head off the first level with a count. -/
theorem mlfqSchedule_links {o : Option Slot} (hi : s.firstLevel = some i)
    (h : mlfqSchedule s = some (s₁, o)) : s.links.dequeue (.level i) = some (s₁.links, o) := by
  rcases mlfqSchedule_parts h with ⟨hno, -⟩ | ⟨j, l, p, hj, hd, -, rfl⟩
  · exact nomatch hi.symm.trans hno
  · obtain rfl := Option.some.inj (hi.symm.trans hj)
    exact hd

theorem addToReadyQueue_table (h : addToReadyQueue s p = some s') : SameTable s s' ∧
    s'.links.queue = update s.links.queue (s.homeQueue p)
      ⟨(s.links.queue (s.homeQueue p)).head.or (some p), some p,
        (s.links.queue (s.homeQueue p)).count + 1⟩ := by
  obtain ⟨l, hl, rfl⟩ := addToReadyQueue_effect h
  exact ⟨.links s l, (enqueue_eq hl).1⟩

theorem Sealed.add (h : Sealed H s.links) (hk : s.homeQueue p = .level 0) (hp : ¬ H p)
    (ha : addToReadyQueue s p = some s') : Sealed H s'.links ∧ Apart H s.links s'.links := by
  obtain ⟨l, hl, rfl⟩ := addToReadyQueue_effect ha
  rw [hk] at hl
  exact h.enqueue hp hl

theorem Sealed.switchTo (h : Sealed H s.links) (hk : s.homeQueue x = .level 0) (hx : ¬ H x) :
    Sealed H (switchTo s x).links ∧ Apart H s.links (switchTo s x).links := by
  rw [switchTo_links]
  split
  · exact ⟨h, .refl _ _⟩
  · rw [hk]
    exact h.unlink hx

/-- A dispatch from level 0 to level 0 stays in level 0. -/
theorem Sealed.schedule (ht : s.config.type = .mlfq) (h : Sealed H s.links)
    (h0 : (s.links.queue (.level 0)).count ≠ 0)
    (hx : ∀ x, (s.links.queue (.level 0)).head = some x → (s.pcb x).priority = 0)
    (hc : ∀ c, s.current = some c → (s.pcb c).priority = 0 ∧ ¬ H c)
    (hs : schedule s = some s') : Sealed H s'.links ∧ Apart H s.links s'.links := by
  unfold Scheduler.schedule at hs
  obtain ⟨⟨s₁, o⟩, hsel, hs⟩ := Option.bind_eq_some_iff.mp hs
  obtain ⟨-, hst⟩ := selectNext_effect hsel
  have ht₁ : s₁.config.type = .mlfq := by
    rw [hst.config]
    exact ht
  have hd : s.links.dequeue (.level 0) = some (s₁.links, o) := by
    unfold selectNext at hsel
    rw [ht] at hsel
    exact mlfqSchedule_links (firstLevel_top h0) hsel
  obtain ⟨h₁, ha₁⟩ := h.dequeue hd
  have ho := dequeue_head hd
  dsimp only at hs
  split at hs
  · cases hs
    exact ⟨h₁, ha₁⟩
  · rename_i x
    have hpx : (s₁.pcb x).priority = 0 := (hst.priority x).trans (hx x ho.symm)
    have hHx : ¬ H x := h.head x ho.symm
    split at hs
    · cases hs
      exact ⟨h₁, ha₁⟩
    · split at hs
      · cases hs
        obtain ⟨h₂, ha₂⟩ := h₁.switchTo (homeQueue_top ht₁ hpx) hHx
        exact ⟨h₂, ha₁.trans ha₂⟩
      · rename_i c hcur
        obtain ⟨s₂, hadd, hs⟩ := Option.bind_eq_some_iff.mp hs
        cases hs
        rw [hst.current] at hcur
        obtain ⟨hpc, hHc⟩ := hc c hcur
        have hset := setState_procs s₁ c .ready
        have hp₂ : SameProcs s₁ s₂ := hset.trans (addToReadyQueue_table hadd).1.toSameProcs
        have hk : (s₁.setState c .ready).homeQueue c = .level 0 := by
          rw [hset.home]
          exact homeQueue_top ht₁ ((hst.priority c).trans hpc)
        have hkx : s₂.homeQueue x = .level 0 := by
          rw [hp₂.home]
          exact homeQueue_top ht₁ hpx
        obtain ⟨h₂, ha₂⟩ := Sealed.add (s := s₁.setState c .ready) h₁ hk hHc hadd
        obtain ⟨h₃, ha₃⟩ := h₂.switchTo hkx hHx
        exact ⟨h₃, (ha₁.trans ha₂).trans ha₃⟩

/-- A process of level 0 yields to one of level 0. -/
theorem Sealed.yield (ht : s.config.type = .mlfq) (h : Sealed H s.links)
    (hcur : s.current = some c) (hp : (s.pcb c).priority = 0) (hc : ¬ H c)
    (hroom : (s.links.queue (.level 0)).count + 1 ≠ 0)
    (hhead : ∀ x, (s.links.queue (.level 0)).head = some x → (s.pcb x).priority = 0)
    (hy : yield s = some s') : Sealed H s'.links ∧ Apart H s.links s'.links := by
  have hset := setState_procs s c .ready
  have hk : (s.setState c .ready).homeQueue c = .level 0 := by
    rw [hset.home]
    exact homeQueue_top ht hp
  unfold Scheduler.yield at hy
  rw [hcur] at hy
  obtain ⟨s₁, hadd, hsch⟩ := Option.bind_eq_some_iff.mp hy
  obtain ⟨h₁, ha₁⟩ := Sealed.add (s := s.setState c .ready) h hk hc hadd
  obtain ⟨hst, hqueue⟩ := addToReadyQueue_table hadd
  have hp₁ : SameProcs s s₁ := hset.trans hst.toSameProcs
  have hq := congrFun hqueue (.level 0)
  rw [hk, update_self] at hq
  have ht₁ : s₁.config.type = .mlfq := by
    rw [hp₁.config]
    exact ht
  have h0 : (s₁.links.queue (.level 0)).count ≠ 0 := by
    rw [hq]
    exact hroom
  have hfirst : ∀ x, (s₁.links.queue (.level 0)).head = some x → (s₁.pcb x).priority = 0 := by
    intro x hx
    refine (hp₁.priority x).trans ?_
    rw [hq] at hx
    rcases Option.or_eq_some_iff.mp hx with hx | ⟨-, hx⟩
    · exact hhead x hx
    · rw [← Option.some.inj hx]
      exact hp
  have hcurrent : ∀ d, s₁.current = some d → (s₁.pcb d).priority = 0 ∧ ¬ H d := by
    intro d hd
    obtain rfl : c = d := Option.some.inj (hcur.symm.trans (hst.current.symm.trans hd))
    exact ⟨(hp₁.priority c).trans hp, hc⟩
  obtain ⟨h₂, ha₂⟩ := h₁.schedule ht₁ h0 hfirst hcurrent hsch
  exact ⟨h₂, ha₁.trans ha₂⟩

/-! ## Whom a boost reaches -/

/-- Every process that has not been terminated has the best priority. -/
def AllTop (s : State) : Prop := ∀ q, (s.pcb q).state ≠ .terminated → (s.pcb q).priority = 0

/-- `p` is met in a queue below level 0. -/
def Waiting (s : State) (p : Slot) : Prop :=
  ∃ j : Fin MAX_PRIORITY_LEVELS, j ≠ 0 ∧ p ∈ s.list (.level j)

/-- Every process that has not been terminated has the best priority or waits below level 0. -/
def Reached (s : State) : Prop :=
  ∀ q, (s.pcb q).state ≠ .terminated → (s.pcb q).priority = 0 ∨ Waiting s q

/-- The slice of `c` ends in level 0, which leads to no process below. -/
structure EndsAtTop (s : State) (c : Slot) : Prop where
  top : (s.pcb c).priority = 0
  out : ¬ Waiting s c
  room : (s.links.queue (.level 0)).count + 1 ≠ 0
  head : ∀ x ∈ (s.links.queue (.level 0)).head, (s.pcb x).priority = 0
  apart : Sealed (Waiting s) s.links

/-- The levels below the top are lists, and a slice that ends on the same tick leaves them alone. -/
def BoostSound (s : State) (c : Slot) : Prop :=
  Levels s.links (fun j => s.list (.level j)) ∧ (s.expires c → EndsAtTop s c)

/-! ### The conditions are decided by looking at the state -/

instance (l : Links) (k : QueueId) (xs : List Slot) : Decidable (Lined l k xs) :=
  decidable_of_iff
    ((l.queue k).head = xs.head? ∧ (l.queue k).tail = xs.getLast? ∧
      (xs.IsChain fun a b => l.next a = some b) ∧ xs.Nodup)
    ⟨fun h => ⟨h.1, h.2.1, h.2.2.1, h.2.2.2⟩, fun h => ⟨h.head, h.tail, h.next, h.nodup⟩⟩

instance (xs : Fin MAX_PRIORITY_LEVELS → List Slot) : Decidable (Parted xs) :=
  inferInstanceAs (Decidable (∀ _, _))

instance (l : Links) (xs : Fin MAX_PRIORITY_LEVELS → List Slot) : Decidable (Levels l xs) :=
  decidable_of_iff
    ((∀ j, j ≠ 0 → Lined l (.level j) (xs j)) ∧
      (∀ j, j ≠ 0 → (l.queue (.level j)).count.toNat = (xs j).length) ∧ Parted xs ∧
      ∀ t ∈ (l.queue (.level 0)).tail, ∀ j, j ≠ 0 → t ∉ xs j)
    ⟨fun h => ⟨h.1, h.2.1, h.2.2.1, h.2.2.2⟩, fun h => ⟨h.lined, h.count, h.disjoint, h.tail⟩⟩

instance (s : State) (p : Slot) : Decidable (Waiting s p) := inferInstanceAs (Decidable (∃ _, _))

instance (H : Slot → Prop) [DecidablePred H] (f : Slot → Option Slot) : Decidable (Avoids H f) :=
  inferInstanceAs (Decidable (∀ _, _))

instance (H : Slot → Prop) [DecidablePred H] (l : Links) : Decidable (Sealed H l) :=
  decidable_of_iff
    ((∀ p ∈ (l.queue (.level 0)).head, ¬ H p) ∧ (∀ p ∈ (l.queue (.level 0)).tail, ¬ H p) ∧
      Avoids H l.next ∧ Avoids H l.prev)
    ⟨fun h => ⟨h.1, h.2.1, h.2.2.1, h.2.2.2⟩, fun h => ⟨h.head, h.tail, h.next, h.prev⟩⟩

instance (s : State) (c : Slot) : Decidable (EndsAtTop s c) :=
  decidable_of_iff
    ((s.pcb c).priority = 0 ∧ ¬ Waiting s c ∧ (s.links.queue (.level 0)).count + 1 ≠ 0 ∧
      (∀ x ∈ (s.links.queue (.level 0)).head, (s.pcb x).priority = 0) ∧
      Sealed (Waiting s) s.links)
    ⟨fun h => ⟨h.1, h.2.1, h.2.2.1, h.2.2.2.1, h.2.2.2.2⟩,
      fun h => ⟨h.top, h.out, h.room, h.head, h.apart⟩⟩

instance (s : State) (c : Slot) : Decidable (BoostSound s c) :=
  inferInstanceAs (Decidable (_ ∧ _))

instance (s : State) : Decidable (Reached s) := inferInstanceAs (Decidable (∀ _, _))

/-! ### The tick -/

/-- **What a tick with a boost does to priorities.** -/
theorem tick_boosts (hc : s.current = some c) (hs : tick s = some s') (hb : s.boostDue)
    (hok : BoostSound s c) (q : Slot) :
    (s'.pcb q).priority = if Waiting s q then 0 else (s.pcb q).priority := by
  rcases tick_cases hs with ⟨hno, -⟩ | ⟨c', s₁, hc', hsl, hbo⟩
  · exact nomatch hno.symm.trans hc
  · obtain rfl : c = c' := Option.some.inj (hc.symm.trans hc')
    have hch := charged_effect s c
    have hcur : (s.charged c).current = some c := hch.current.trans hc
    -- the levels below the top and the priorities when the boost starts
    obtain ⟨hl₁, hp₁⟩ : Levels s₁.links (fun j => s.list (.level j)) ∧
        (s₁.pcb q).priority = (s.pcb q).priority := by
      rcases hsl with ⟨he, hy⟩ | ⟨-, rfl⟩
      · have hend := hok.2 he
        have hseal : Sealed (Waiting s) (s.charged c).links := hend.apart
        obtain ⟨hs₁, ha₁⟩ := Sealed.yield (s := s.charged c) hb.1 hseal hcur
          ((hch.priority c).trans hend.top) hend.out
          hend.room (fun x hx => (hch.priority x).trans (hend.head x hx)) hy
        refine ⟨?_, ((yield_effect hcur hy).1.priority q).trans (hch.priority q)⟩
        exact Levels.apart hok.1 ha₁ hs₁ fun j p hj hp => ⟨j, hj, hp⟩
      · exact ⟨hok.1, hch.priority q⟩
    rcases hbo with ⟨hno, -⟩ | ⟨-, s₂, s₃, ⟨hst, hl⟩, hboost, rfl⟩
    · exact absurd hb hno
    · rw [← hl] at hl₁
      have hp := boostPriority_levels hl₁ hboost q
      rw [hst.priority, hp₁] at hp
      refine hp.trans ?_
      exact if_congr Iff.rfl rfl rfl

/-- With `c` back at level 0, its head is picked. -/
theorem pickWith_top (ht : s.config.type = .mlfq) (hp : (s.pcb c).priority = 0)
    (hroom : (s.links.queue (.level 0)).count + 1 ≠ 0) :
    s.pickWith c = (s.links.queue (.level 0)).head.or (some c) := by
  have hlist : List.finRange MAX_PRIORITY_LEVELS = [0, 1, 2, 3] := rfl
  have hpos := (count_pos_iff _).mpr hroom
  unfold State.pickWith State.pickFrom State.scan
  dsimp only
  rw [if_pos ht, homeQueue_top ht hp, hlist, List.map_cons, List.find?_cons_of_pos]
  · simp
  · rw [update_self]
    exact decide_eq_true hpos

/-- The slice of a process with the best priority hands over to another one: no other process
changes its state. -/
theorem tick_state (ht : s.config.type = .mlfq) (hc : s.current = some c)
    (hs : tick s = some s') (hok : BoostSound s c) {q : Slot} (hq : (s.pcb q).priority ≠ 0) :
    (s'.pcb q).state = (s.pcb q).state := by
  rcases tick_effect hs with ⟨-, hst⟩ | ⟨c', hc', he, hcase⟩
  · exact hst.state q
  · obtain rfl : c = c' := Option.some.inj (hc.symm.trans hc')
    have hend := hok.2 he
    have hqc : q ≠ c := by
      rintro rfl
      exact hq hend.top
    rcases hcase with ⟨-, hst⟩ | ⟨x, hx, -, hsw⟩
    · rw [hst.state, setState_state, if_neg hqc]
    · rw [pickWith_top ht hend.top hend.room] at hx
      have hxp : (s.pcb x).priority = 0 := by
        rcases Option.or_eq_some_iff.mp hx with hx | ⟨-, hx⟩
        · exact hend.head x hx
        · rw [← Option.some.inj hx]
          exact hend.top
      have hqx : q ≠ x := by
        rintro rfl
        exact hq hxp
      rw [hsw.state, if_neg hqx, if_neg]
      rw [hc]
      exact fun he => hqc (Option.some.inj he).symm

/-- **In every run a boost brings every live process to the top exactly if each of them is there
already or waits in a queue below**, as long as the queues below the top are lists. -/
theorem boosted_iff (ht : config.type = .mlfq)
    (hrun : Reaches Step anyAction (schedulerInit config) s) (hc : s.current = some c)
    (hb : s.boostDue) (hs : Step s .tick s') (hok : BoostSound s c) : AllTop s' ↔ Reached s := by
  have ht' : s.config.type = .mlfq := by
    rw [run_config hrun]
    exact ht
  constructor
  · intro htop q hq
    by_cases hp : (s.pcb q).priority = 0
    · exact .inl hp
    · have hstate := tick_state ht' hc hs hok hp
      have hp' := htop q (by rw [hstate]; exact hq)
      rw [tick_boosts hc hs hb hok] at hp'
      split at hp'
      · exact .inr ‹_›
      · exact absurd hp' hp
  · intro hreach q hq
    rw [tick_boosts hc hs hb hok]
    split
    · rfl
    · rename_i hw
      by_contra hp
      have hstate := tick_state ht' hc hs hok hp
      rw [hstate] at hq
      exact (hreach q hq).elim hp hw

/-- A process hands over at level 0 on the tick that lifts the one at level 1. -/
theorem boosted_iff_run : ∃ s s', s.current = some 0 ∧ s.boostDue ∧ s.expires 0 ∧
    (s.pcb 2).priority = 1 ∧
    Reaches Step anyAction (schedulerInit ⟨.mlfq, 10, 1, 4, 10⟩) s ∧ Step s .tick s' ∧
    (AllTop s' ↔ Reached s) := by
  have hx : (exec step (fun _ _ => true) (schedulerInit ⟨.mlfq, 10, 1, 4, 10⟩)
      [.create [] 0, .create [] 0, .create [] 1, .schedule, .tick, .tick, .tick, .tick, .tick,
        .tick, .tick, .tick, .tick]).bind
      (fun s => (step s .tick).map fun _ => (s.current, decide s.boostDue, decide (s.expires 0),
        (s.pcb 2).priority, decide (BoostSound s 0))) = some (some 0, true, true, 1, true) := by
    decide +kernel
  obtain ⟨s, hrun, hobs⟩ := Option.bind_eq_some_iff.mp hx
  obtain ⟨s', hs, hobs⟩ := Option.map_eq_some_iff.mp hobs
  simp only [Prod.mk.injEq] at hobs
  obtain ⟨hc, hb, he, hp, hok⟩ := hobs
  have hrun := anyRun_of_exec hrun
  exact ⟨s, s', hc, of_decide_eq_true hb, of_decide_eq_true he, hp, hrun, hs,
    boosted_iff rfl hrun hc (of_decide_eq_true hb) hs (of_decide_eq_true hok)⟩

/-- The running process is in no queue: the boost passes it by. -/
theorem not_boosted : ¬ ∀ config s s', config.type = .mlfq →
    Reaches Step anyAction (schedulerInit config) s → s.current ≠ none → s.boostDue →
    Step s .tick s' → AllTop s' := by
  intro hall
  have hx : (exec step (fun _ _ => true) (schedulerInit ⟨.mlfq, 10, 1, 4, 5⟩)
      [.create [] 1, .schedule, .tick, .tick, .tick, .tick]).bind
      (fun s => (step s .tick).map fun s' => (s.current, decide s.boostDue, (s'.pcb 0).state,
        (s'.pcb 0).priority)) = some (some 0, true, .running, 1) := by decide +kernel
  obtain ⟨s, hrun, hobs⟩ := Option.bind_eq_some_iff.mp hx
  obtain ⟨s', hs, hobs⟩ := Option.map_eq_some_iff.mp hobs
  simp only [Prod.mk.injEq] at hobs
  obtain ⟨hc, hb, hst, hp⟩ := hobs
  have htop := hall ⟨.mlfq, 10, 1, 4, 5⟩ s s' rfl (anyRun_of_exec hrun) (by rw [hc]; decide)
    (of_decide_eq_true hb) hs 0 (by rw [hst]; decide)
  rw [hp] at htop
  exact absurd htop (by decide)

end OSCompas.Scheduler
