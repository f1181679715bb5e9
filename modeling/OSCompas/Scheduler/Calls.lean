import OSCompas.Scheduler.Lists

/-!
# The lists after a call

The abstract counterpart of every call, under the conditions that make its link edits harmless.

* `ScheduleOk`, `State.Lone`, `RetireOk`, `BoostOk` — these conditions;
* `LinkOk` — the condition for every call;
* `State.afterSchedule`, `State.afterYield`, `State.afterRetire` — the lists a call leaves;
* `OneWaiting`, `LosesOne` — the counts stay right.

Principal results: `schedule_shape`, `yield_shape`, `create_shape`, `retire_shape`,
`boost_shape` and `tick_shape`.
-/

set_option autoImplicit false

namespace OSCompas.Scheduler

open Function Intrusive

variable {s s' s₁ s₂ : State} {l l' : Links} {qs : Queues} {k k' : QueueId}
variable {p x c i : Slot} {xs : List Slot} {o : Option Slot}

/-! ## `scheduler_schedule` -/

/-- The current process is in no queue, unless it is picked itself. -/
def ScheduleOk (s : State) : Prop :=
  ∀ x ∈ s.pick, ∀ c ∈ s.current, c = x ∨ c ∉ s.list (s.homeQueue c) ∧ ¬ s.readds c

instance (s : State) : Decidable (ScheduleOk s) := by delta ScheduleOk; infer_instance

/-- Taking `x` out of its queue for the second time resets the queue that only holds `c`. -/
def State.wipes (s : State) (qs : Queues) (x c : Slot) : Prop :=
  s.homeQueue c = s.homeQueue x ∧ qs (s.homeQueue x) = [x] ∧ ¬ s.unmanaged x

instance (s : State) (qs : Queues) (x c : Slot) : Decidable (s.wipes qs x c) :=
  inferInstanceAs (Decidable (_ ∧ _))

/-- The lists after `scheduler_schedule`. -/
def State.afterSchedule (s : State) (qs : Queues) : Queues :=
  match s.pick with
  | none => qs
  | some x =>
    let rest := update qs (s.homeQueue x) (qs (s.homeQueue x)).tail
    match s.current with
    | none => rest
    | some c =>
      if c = x then
        if s.readds c then push rest (s.homeQueue c) c else rest
      else if s.wipes qs x c then rest
      else push rest (s.homeQueue c) c

/-- A dispatch takes off a list of one process, or does not decrement twice. -/
def OneWaiting (s : State) (qs : Queues) : Prop :=
  ∀ x ∈ s.pick, s.current ≠ some x → s.unmanaged x ∨ qs (s.homeQueue x) = [x]

/-- The pick is the first of its list. -/
theorem pick_mem (h : Shape s qs) (hp : s.pick = some x) : ∃ xs, qs (s.homeQueue x) = x :: xs := by
  obtain ⟨k, -, hk⟩ := Option.bind_eq_some_iff.mp hp
  have hq := h.threaded.queue k
  rw [hq.head_eq] at hk
  obtain ⟨xs, hxs⟩ := List.head?_eq_some_iff.mp hk
  have hhome : s.homeQueue x = k := h.home k x (by simp [hxs])
  exact ⟨xs, hhome ▸ hxs⟩

/-- A dispatch takes the pick off the lists and adds the current process. -/
theorem onList_afterSchedule (h : Shape s qs) (hp : s.pick = some x) :
    OnList (s.afterSchedule qs) p ↔ OnList qs p ∧ p ≠ x ∨
      s.current = some p ∧ if p = x then s.readds p else ¬ s.wipes qs x p := by
  obtain ⟨xs, hxs⟩ := pick_mem h hp
  have hnd := (h.threaded.queue (s.homeQueue x)).nodup
  rw [hxs] at hnd
  have hrest : OnList (update qs (s.homeQueue x) (qs (s.homeQueue x)).tail) p ↔
      OnList qs p ∧ p ≠ x := by
    rw [hxs, List.tail_cons, onList_update h.threaded (by
      rw [hxs]
      exact fun y hy => List.mem_cons_of_mem x hy), hxs]
    constructor
    · rintro ⟨hq, hmem⟩
      refine ⟨hq, fun he => (List.nodup_cons.mp hnd).1 ?_⟩
      rw [← he]
      exact hmem (by simp [he])
    · rintro ⟨hq, hne⟩
      exact ⟨hq, fun hmem => (List.mem_cons.mp hmem).resolve_left hne⟩
  unfold State.afterSchedule
  rw [hp]
  dsimp only
  cases hc : s.current with
  | none => simp [hrest]
  | some c =>
    dsimp only
    by_cases hcx : c = x
    · subst hcx
      by_cases hr : s.readds c
      · rw [if_pos rfl, if_pos hr, onList_push, hrest]
        constructor
        · rintro (hq | rfl)
          · exact .inl hq
          · exact .inr ⟨rfl, by rw [if_pos rfl]; exact hr⟩
        · rintro (hq | ⟨hq, -⟩)
          · exact .inl hq
          · exact .inr (Option.some.inj hq).symm
      · rw [if_pos rfl, if_neg hr, hrest]
        constructor
        · exact .inl
        · rintro (hq | ⟨hq, hq'⟩)
          · exact hq
          · obtain rfl := Option.some.inj hq
            rw [if_pos rfl] at hq'
            exact absurd hq' hr
    · rw [if_neg hcx]
      by_cases hw : s.wipes qs x c
      · rw [if_pos hw, hrest]
        constructor
        · exact .inl
        · rintro (hq | ⟨hq, hq'⟩)
          · exact hq
          · obtain rfl := Option.some.inj hq
            rw [if_neg hcx] at hq'
            exact absurd hw hq'
      · rw [if_neg hw, onList_push, hrest]
        constructor
        · rintro (hq | rfl)
          · exact .inl hq
          · exact .inr ⟨rfl, by rw [if_neg hcx]; exact hw⟩
        · rintro (hq | ⟨hq, -⟩)
          · exact .inl hq
          · exact .inr (Option.some.inj hq).symm

/-- The current process is picked again. -/
theorem schedule_again (h : Shape s qs) (hc : s.current = some c) (hp : s.pick = some c)
    (hs : schedule s = some s') : ∃ xs s₂, Popped s qs c xs s₂ ∧
      (s.readds c ∧ addToReadyQueue s₂ c = some s' ∨ ¬ s.readds c ∧ s' = s₂) := by
  obtain ⟨s₁, hsel, -, ⟨-, rfl⟩ | ⟨x, hx, hne, -⟩⟩ := schedule_parts hs
  swap
  · exact absurd (hc.trans (hp.symm.trans hx)) hne
  rcases selectNext_shape h hsel with ⟨hn, -⟩ | ⟨x, xs, s₂, hx, hpop, hs₁⟩
  · exact nomatch hp.symm.trans hn
  · obtain rfl := Option.some.inj (hp.symm.trans hx)
    refine ⟨xs, s₂, hpop, ?_⟩
    rcases hs₁ with ⟨rfl, hno⟩ | ⟨c', hc', hr, ha⟩
    · exact .inr ⟨hno c hc, rfl⟩
    · obtain rfl := Option.some.inj (hc.symm.trans hc')
      exact .inl ⟨hr, ha⟩

/-- Another process runs. -/
theorem schedule_other (h : Shape s qs) (hok : ScheduleOk s) (hp : s.pick = some x)
    (hc : s.current ≠ some x) (hs : schedule s = some s') : ∃ xs s₁, Popped s qs x xs s₁ ∧
      match s.current with
      | none => s' = switchTo s₁ x
      | some c => ∃ s₃, addToReadyQueue (s₁.setState c .ready) c = some s₃ ∧
          s' = switchTo s₃ x := by
  obtain ⟨s₁, hsel, -, ⟨hno, -⟩ | ⟨x', hx', -, hs⟩⟩ := schedule_parts hs
  · rcases hno with hno | hno
    · exact nomatch hp.symm.trans hno
    · exact absurd (hno.symm.trans hp) hc
  obtain rfl := Option.some.inj (hp.symm.trans hx')
  rcases selectNext_shape h hsel with ⟨hn, -⟩ | ⟨y, xs, s₂, hy, hpop, hs₁⟩
  · exact nomatch hp.symm.trans hn
  · obtain rfl := Option.some.inj (hp.symm.trans hy)
    have heq : s₁ = s₂ := by
      rcases hs₁ with ⟨he, -⟩ | ⟨c, hcc, hr, -⟩
      · exact he
      · rcases hok x hp c hcc with rfl | ⟨-, hnr⟩
        · exact absurd hcc hc
        · exact absurd hr hnr
    subst heq
    refine ⟨xs, s₁, hpop, ?_⟩
    rcases hs with ⟨hcur, rfl⟩ | ⟨c, s₃, hcur, ha, rfl⟩
    · rw [hcur]
    · rw [hcur]
      exact ⟨s₃, ha, rfl⟩

/-- The current process goes to the end of its queue, and then `x` is taken out of its own. -/
theorem switch_from (h : Shape s qs) (hpop : Popped s qs x xs s₁) (hcx : c ≠ x)
    (hout : c ∉ qs (s.homeQueue c))
    (ha : addToReadyQueue (s₁.setState c .ready) c = some s₂) :
    let qs₁ := update qs (s.homeQueue x) xs
    let qs' := if s.wipes qs x c then qs₁ else push qs₁ (s.homeQueue c) c
    Shape (switchTo s₂ x) qs' ∧ (Counted s.links qs → s.unmanaged x ∨ qs (s.homeQueue x) = [x] →
      Counted (switchTo s₂ x).links qs') := by
  intro qs₁ qs'
  have hset := setState_procs s₁ c .ready
  have hp₁ : SameProcs s (s₁.setState c .ready) := hpop.table.toSameProcs.trans hset
  have hp₂ : SameProcs s s₂ := by
    obtain ⟨l, -, rfl⟩ := addToReadyQueue_effect ha
    exact hp₁.trans (SameTable.links _ l).toSameProcs
  have hsub : ∀ y ∈ xs, y ∈ qs (s.homeQueue x) := by
    rw [hpop.list]
    exact fun y hy => List.mem_cons_of_mem x hy
  have hx := hpop.notMem h
  have hc : ∀ k, c ∉ qs₁ k := fun k hk =>
    h.notMem hout (s.homeQueue c) (h.onList_iff.mp ((onList_update h.threaded hsub).mp ⟨k, hk⟩).1)
  have hsh₁ : Shape (s₁.setState c .ready) qs₁ := hpop.shape.table rfl hset
  obtain ⟨hsh, hadd, hframe⟩ := add_shape hsh₁ (hc _) ha
  obtain ⟨hnext, hprev⟩ := hframe x hcx.symm (hx _)
  have hnext : s₂.links.next x = xs.head? := hnext.trans hpop.next
  have hprev : s₂.links.prev x = none := hprev.trans hpop.prev
  rw [hp₁.home] at hsh hadd
  have hx₂ : ∀ k, x ∉ push qs₁ (s.homeQueue c) c k := fun k hk => by
    rcases onList_push.mp ⟨k, hk⟩ with ⟨k', hk'⟩ | he
    · exact hx k' hk'
    · exact hcx he.symm
  have hcount : Counted s.links qs → Counted s₂.links (push qs₁ (s.homeQueue c) c) := fun hcnt =>
    Counted.add (hcnt.take hpop.taken hpop.list) hadd
      (length_le_of_nodup (hpop.shape.threaded.queue _).nodup)
  by_cases hw : s.wipes qs x c
  · obtain ⟨hk, hone, hu⟩ := hw
    have hxs : xs = [] := by
      rw [hpop.list] at hone
      exact (List.cons.inj hone).2
    have hlist : push qs₁ (s.homeQueue c) c (s.homeQueue x) = [c] := by
      unfold push
      rw [hk, update_self, show qs₁ (s.homeQueue x) = xs from update_self _ _ _, hxs]
      rfl
    have hrest : update (push qs₁ (s.homeQueue c) c) (s.homeQueue x) [] = qs₁ := by
      unfold push
      rw [hk, update_idem, update_idem, ← hxs]
    obtain ⟨h1, h2⟩ := switch_alone hsh hx₂ hprev (by rw [hnext, hxs]; rfl)
      (fun hu' => hu ((hp₂.unmanaged x).mp hu'))
    rw [hp₂.home, hrest] at h1 h2
    have hqs' : qs' = qs₁ := if_pos ⟨hk, hone, hu⟩
    rw [hqs']
    exact ⟨h1, fun hcnt _ => h2 (hcount hcnt) (by rw [hlist]; rfl)⟩
  · have hqs' : qs' = push qs₁ (s.homeQueue c) c := if_neg hw
    -- `c` is not the only process left in the queue of `x`
    have hkeep : s.homeQueue c ≠ s.homeQueue x ∨ xs ≠ [] ∨ s.unmanaged x := by
      by_contra hno
      simp only [not_or, not_not] at hno
      exact hw ⟨hno.1, by rw [hpop.list, hno.2.1], hno.2.2⟩
    have hother : s.homeQueue c ≠ s.homeQueue x →
        push qs₁ (s.homeQueue c) c (s.homeQueue x) = xs := fun hk => by
      unfold push
      rw [update_of_ne (Ne.symm hk)]
      exact update_self _ _ _
    have hhead : s.unmanaged x ∨ xs.head? =
        (push qs₁ (s.homeQueue c) c (s.homeQueue x)).head? := by
      by_cases hk : s.homeQueue c = s.homeQueue x
      · rcases hkeep with hk' | hxs | hu
        · exact absurd hk hk'
        · obtain ⟨y, ys, rfl⟩ := List.exists_cons_of_ne_nil hxs
          refine .inr ?_
          unfold push
          rw [hk, update_self, show qs₁ (s.homeQueue x) = y :: ys from update_self _ _ _]
          rfl
        · exact .inl hu
      · rw [hother hk]
        exact .inr rfl
    obtain ⟨h1, h2⟩ := switch_popped hsh hx₂ hprev (by
      rw [hp₂.unmanaged, hp₂.home, hnext]
      exact hhead)
    rw [hqs']
    refine ⟨h1, fun hcnt hone => h2 (hcount hcnt) ?_⟩
    rw [hp₂.unmanaged, hp₂.home]
    rcases hone with hu | hone
    · exact .inl hu
    · have hxs : xs = [] := by
        rw [hpop.list] at hone
        exact (List.cons.inj hone).2
      rcases hkeep with hk | hne | hu
      · exact .inr ((hother hk).trans hxs)
      · exact absurd hxs hne
      · exact .inl hu

/-- **The lists after `scheduler_schedule`.** -/
theorem schedule_shape (h : Shape s qs) (hok : ScheduleOk s) (hs : schedule s = some s') :
    Shape s' (s.afterSchedule qs) ∧ (Counted s.links qs → OneWaiting s qs →
      Counted s'.links (s.afterSchedule qs)) := by
  unfold State.afterSchedule
  cases hp : s.pick with
  | none =>
    obtain ⟨s₁, hsel, -, ⟨-, rfl⟩ | ⟨x, hx, -⟩⟩ := schedule_parts hs
    swap
    · exact nomatch hp.symm.trans hx
    rcases selectNext_shape h hsel with ⟨-, hsh, hc⟩ | ⟨x, xs, s₂, hx, -⟩
    · exact ⟨hsh, fun hcnt _ => hc hcnt⟩
    · exact nomatch hp.symm.trans hx
  | some x =>
    by_cases hcx : s.current = some x
    · obtain ⟨xs, s₂, hpop, hs'⟩ := schedule_again h hcx hp hs
      have htail : (qs (s.homeQueue x)).tail = xs := by rw [hpop.list, List.tail_cons]
      simp only [hcx, if_true, htail]
      have hcount : Counted s.links qs → Counted s₂.links (update qs (s.homeQueue x) xs) :=
        fun hcnt => hcnt.take hpop.taken hpop.list
      rcases hs' with ⟨hr, ha⟩ | ⟨hr, rfl⟩
      · obtain ⟨h1, h2, -⟩ := add_shape hpop.shape (hpop.notMem h _) ha
        rw [hpop.table.home] at h1 h2
        rw [if_pos hr]
        exact ⟨h1, fun hcnt _ => (hcount hcnt).add h2
          (length_le_of_nodup (hpop.shape.threaded.queue _).nodup)⟩
      · rw [if_neg hr]
        exact ⟨hpop.shape, fun hcnt _ => hcount hcnt⟩
    · obtain ⟨xs, s₁, hpop, hs'⟩ := schedule_other h hok hp hcx hs
      have htail : (qs (s.homeQueue x)).tail = xs := by rw [hpop.list, List.tail_cons]
      have hone : OneWaiting s qs → s.unmanaged x ∨ qs (s.homeQueue x) = [x] :=
        fun hone => hone x hp hcx
      simp only [htail]
      cases hcur : s.current with
      | none =>
        rw [hcur] at hs'
        subst hs'
        have hself : update qs (s.homeQueue x) xs (s.homeQueue x) = xs := update_self _ _ _
        obtain ⟨h1, h2⟩ := switch_popped hpop.shape (hpop.notMem h) hpop.prev (by
          rw [hpop.table.home, hself]
          exact .inr hpop.next)
        refine ⟨h1, fun hcnt how => h2 (hcnt.take hpop.taken hpop.list) ?_⟩
        rw [hpop.table.unmanaged, hpop.table.home, hself]
        refine (hone how).imp id fun he => ?_
        rw [hpop.list] at he
        exact (List.cons.inj he).2
      | some c =>
        rw [hcur] at hs'
        obtain ⟨s₃, ha, rfl⟩ := hs'
        have hne : c ≠ x := fun he => hcx (by rw [hcur, he])
        have hout : c ∉ qs (s.homeQueue c) := by
          rw [← h.list]
          exact ((hok x hp c hcur).resolve_left hne).1
        obtain ⟨h1, h2⟩ := switch_from h hpop hne hout ha
        simp only [if_neg hne]
        exact ⟨h1, fun hcnt how => h2 hcnt (hone how)⟩

/-! ## `scheduler_yield` -/

/-- The queue of `c` is empty, and the policy picks `c` once it is added. -/
def State.Lone (s : State) (c : Slot) : Prop :=
  s.list (s.homeQueue c) = [] ∧ s.pickWith c = some c

instance (s : State) (c : Slot) : Decidable (s.Lone c) := inferInstanceAs (Decidable (_ ∧ _))

/-- The lists after a lone process `c` yields. -/
def State.afterYield (s : State) (qs : Queues) (c : Slot) : Queues :=
  if s.config.type = .rr then push qs (s.homeQueue c) c else qs

/-- **A process that is alone yields**: it is added, and picked again; round robin adds it for the
second time. -/
theorem yield_shape (h : Shape s qs) (hc : s.current = some c) (hl : s.Lone c)
    (hy : yield s = some s') : Shape s' (s.afterYield qs c) ∧
      (Counted s.links qs → Counted s'.links (s.afterYield qs c)) ∧
      (s.config.type ≠ .rr → ∀ k, (s'.links.queue k).count = (s.links.queue k).count) := by
  obtain ⟨hnil, hpick⟩ := hl
  rw [h.list] at hnil
  unfold yield at hy
  rw [hc] at hy
  obtain ⟨s₁, ha, hy⟩ := Option.bind_eq_some_iff.mp hy
  obtain ⟨hst, hp₁⟩ := readd_effect ha
  have hset := setState_procs s c .ready
  have hp : SameProcs s s₁ := hset.trans hst.toSameProcs
  have hsh₀ : Shape (s.setState c .ready) qs := h.table rfl hset
  obtain ⟨hsh, hadd, -⟩ := add_shape hsh₀ (by rw [hset.home, hnil]; simp) ha
  rw [hset.home] at hsh hadd
  obtain ⟨xs, s₂, hpop, hs'⟩ := schedule_again hsh (hst.current.trans hc) (hp₁.trans hpick) hy
  have hxs : xs = [] := by
    have hlist := hpop.list
    unfold push at hlist
    rw [hp.home, update_self, hnil] at hlist
    exact (List.cons.inj hlist).2.symm
  have hrest : update (push qs (s.homeQueue c) c) (s₁.homeQueue c) xs = qs := by
    unfold push
    rw [hp.home, update_idem, hxs, ← hnil, update_eq_self]
  have hpsh := hpop.shape
  rw [hrest] at hpsh
  have hcount : ∀ k, (s₂.links.queue k).count = (s.links.queue k).count := fun k => by
    rw [hpop.taken k, hp.home, hadd k]
    split
    · exact UInt32.add_sub_cancel _ _
    · rfl
  have hcnt : Counted s.links qs → Counted s₂.links qs := fun hcnt k => by
    rw [hcount k]
    exact hcnt k
  have hrr : s₁.readds c ↔ s.config.type = .rr := by
    have hstate : (s₁.pcb c).state = .ready := by rw [hst.state, setState_state, if_pos rfl]
    unfold State.readds
    rw [hp.config, hstate]
    simp
  unfold State.afterYield
  rcases hs' with ⟨hr, ha₂⟩ | ⟨hr, rfl⟩
  · have hp₂ : SameProcs s s₂ := hp.trans hpop.table.toSameProcs
    obtain ⟨h1, h2, -⟩ := add_shape hpsh (by rw [hp₂.home, hnil]; simp) ha₂
    rw [hp₂.home] at h1 h2
    rw [if_pos (hrr.mp hr)]
    refine ⟨h1, fun h0 => (hcnt h0).add h2 (by rw [hnil]; simp), fun hne => ?_⟩
    exact absurd (hrr.mp hr) hne
  · rw [if_neg fun ht => hr (hrr.mpr ht)]
    exact ⟨hpsh, hcnt, fun _ => hcount⟩

/-- It stays the current process, and only its own state changes. -/
theorem yield_lone (hc : s.current = some c) (hl : s.Lone c) (hy : yield s = some s') :
    SameStates (s.setState c .ready) s' := by
  obtain ⟨-, hcase⟩ := yield_effect hc hy
  rcases hcase with ⟨-, hst⟩ | ⟨x, hx, hne, -⟩
  · exact hst
  · exact absurd (Option.some.inj (hx.symm.trans hl.2)) hne

/-! ## `scheduler_create_process` -/

/-- **A slot that is in no queue goes to the end of the queue of its new priority.** -/
theorem create_shape (h : Shape s qs) (hp : Created s s₁ p) (hout : p ∉ qs (s.homeQueue p))
    (ha : addToReadyQueue s₁ p = some s') :
    Shape s' (push qs (s'.homeQueue p) p) ∧
      (Counted s.links qs → Counted s'.links (push qs (s'.homeQueue p) p)) := by
  have hsh : Shape s₁ qs := h.congr hp.links fun y hy =>
    homeQueue_congr hp.config (by
      rw [hp.other y fun he => hout (he ▸ h.onList_iff.mp hy)])
  obtain ⟨h1, h2, -⟩ := add_shape hsh (h.notMem hout _) ha
  obtain ⟨l, -, rfl⟩ := addToReadyQueue_effect ha
  refine ⟨h1, fun hc => Counted.add ?_ h2 (length_le_of_nodup (hsh.threaded.queue _).nodup)⟩
  rw [hp.links]
  exact hc

/-! ## `scheduler_terminate_process` -/

/-- `remove_from_ready_queue` does nothing, or finds `i` in its queue, or finds it without
neighbours. -/
def RetireOk (s : State) (i : Slot) : Prop :=
  s.unmanaged i ∨ i ∈ s.list (s.homeQueue i) ∨ s.links.next i = none ∧ s.links.prev i = none

instance (s : State) (i : Slot) : Decidable (RetireOk s i) := inferInstanceAs (Decidable (_ ∨ _))

/-- The lists after the removal of `i`: a queue `i` is not in is lost. -/
def State.afterRetire (s : State) (qs : Queues) (i : Slot) : Queues :=
  if s.unmanaged i then qs else
    update qs (s.homeQueue i)
      (if i ∈ qs (s.homeQueue i) then (qs (s.homeQueue i)).erase i else [])

/-- A list that is lost has at most one process. -/
def LosesOne (s : State) (qs : Queues) (i : Slot) : Prop :=
  s.unmanaged i ∨ i ∈ qs (s.homeQueue i) ∨ (qs (s.homeQueue i)).length ≤ 1

instance (s : State) (qs : Queues) (i : Slot) : Decidable (LosesOne s qs i) :=
  inferInstanceAs (Decidable (_ ∨ _))

/-- **The lists after the first part of `scheduler_terminate_process`.** -/
theorem retire_shape (h : Shape s qs) (hok : RetireOk s i) :
    Shape (retire s i) (s.afterRetire qs i) ∧ (Counted s.links qs → LosesOne s qs i →
      Counted (retire s i).links (s.afterRetire qs i)) := by
  obtain ⟨hst, -⟩ := retire_effect s i
  have hp : SameProcs s (retire s i) := (setState_procs s i _).trans hst.toSameProcs
  unfold State.afterRetire
  by_cases hu : s.unmanaged i
  · rw [if_pos hu]
    have hl : (retire s i).links = s.links := by rw [retire_links, if_pos hu]
    exact ⟨h.table hl hp, fun hc _ => hl ▸ hc⟩
  · rw [if_neg hu]
    have hl : (retire s i).links = s.links.unlink (s.homeQueue i) i := by
      rw [retire_links, if_neg hu]
    have hcount := unlink_count s.links (s.homeQueue i) i
    rw [← hl] at hcount
    have hhome : ∀ ys, (∀ y ∈ ys, y ∈ qs (s.homeQueue i)) → ∀ k p,
        p ∈ update qs (s.homeQueue i) ys k → (retire s i).homeQueue p = k := fun ys hsub k p hk => by
      rw [hp.home]
      by_cases he : k = s.homeQueue i
      · subst he
        rw [update_self] at hk
        exact h.home _ p (hsub p hk)
      · rw [update_of_ne he] at hk
        exact h.home k p hk
    by_cases hi : i ∈ qs (s.homeQueue i)
    · rw [if_pos hi]
      obtain ⟨a, b, hab⟩ := List.append_of_mem hi
      have hnd := (h.threaded.queue (s.homeQueue i)).nodup
      rw [hab] at hnd
      have hia : i ∉ a := fun hm => (List.nodup_append.mp hnd).2.2 i hm i (by simp) rfl
      have herase : (qs (s.homeQueue i)).erase i = a ++ b := by
        rw [hab, List.erase_append_right _ hia, List.erase_cons_head]
      refine ⟨⟨?_, hhome _ fun y hy => List.mem_of_mem_erase hy⟩, fun hc _ => ?_⟩
      · rw [hl, herase]
        exact unlink_mem h.threaded hab
      · exact hc.unlink hcount (List.length_erase_of_mem hi)
    · rw [if_neg hi]
      obtain ⟨hnext, hprev⟩ : s.links.next i = none ∧ s.links.prev i = none := by
        rcases hok with hu' | hi' | hno
        · exact absurd hu' hu
        · rw [h.list] at hi'
          exact absurd hi' hi
        · exact hno
      refine ⟨⟨?_, hhome _ (by simp)⟩, fun hc hlose => hc.unlink hcount ?_⟩
      · rw [hl]
        exact unlink_alone h.threaded (h.notMem hi) hprev hnext
      · have hlen := (hlose.resolve_left hu).resolve_left hi
        rw [List.length_nil]
        omega

/-- Of the other processes, only those of a lost queue are gone. -/
theorem onList_afterRetire (h : Shape s qs) : OnList (s.afterRetire qs i) p ↔
    OnList qs p ∧ (s.unmanaged i ∨ p ∉ qs (s.homeQueue i) ∨ i ∈ qs (s.homeQueue i) ∧ p ≠ i) := by
  unfold State.afterRetire
  by_cases hu : s.unmanaged i
  · simp [hu]
  · rw [if_neg hu]
    by_cases hi : i ∈ qs (s.homeQueue i)
    · have hnd := (h.threaded.queue (s.homeQueue i)).nodup
      rw [if_pos hi, onList_update h.threaded fun y hy => List.mem_of_mem_erase hy, hnd.mem_erase_iff]
      simp only [hu, hi, false_or, true_and]
      tauto
    · rw [if_neg hi, onList_update h.threaded (by simp)]
      simp only [hu, hi, false_or, false_and, or_false, List.not_mem_nil]

/-! ## `scheduler_mlfq_boost_priority` -/

/-- The loop of the priority boost at a level takes all processes or none. -/
def BoostOk (s : State) : Prop :=
  ∀ i : Fin MAX_PRIORITY_LEVELS, i ≠ 0 → (s.links.queue (.level i)).count ≠ 0 →
    (s.links.queue (.level i)).count.toNat = (s.list (.level i)).length

instance (s : State) : Decidable (BoostOk s) := by delta BoostOk; infer_instance

/-- Between two rounds of the boost the last process of level 0 still points at `a`. -/
structure Raising (s : State) (a : Option Slot) (qs : Queues) : Prop where
  type : s.config.type = .mlfq
  threaded : Threaded s.links (update noAfter (.level 0) a) qs
  home : ∀ k p, p ∈ qs k → s.homeQueue p = k

/-- Processes moved between the levels 0 and `i`. -/
structure Raised (s : State) (qs : Queues) (i : Fin MAX_PRIORITY_LEVELS) (s' : State)
    (qs' : Queues) : Prop where
  onList : ∀ p, OnList qs' p ↔ OnList qs p
  counted : Counted s.links qs → Counted s'.links qs'
  level : ∀ j, j ≠ 0 → j ≠ i → qs' (.level j) = qs (.level j) ∧
    (s'.links.queue (.level j)).count = (s.links.queue (.level j)).count

variable {qs' : Queues} {j : Fin MAX_PRIORITY_LEVELS} {a : Option Slot}

theorem Raised.refl (s : State) (qs : Queues) : Raised s qs j s qs :=
  ⟨fun _ => Iff.rfl, id, fun _ _ _ => ⟨rfl, rfl⟩⟩

theorem Raised.trans {qs'' : Queues} (h : Raised s qs j s₁ qs') (h' : Raised s₁ qs' j s' qs'') :
    Raised s qs j s' qs'' := by
  refine ⟨fun p => (h'.onList p).trans (h.onList p), fun hc => h'.counted (h.counted hc),
    fun k hk hj => ?_⟩
  obtain ⟨h1, h2⟩ := h.level k hk hj
  obtain ⟨h3, h4⟩ := h'.level k hk hj
  exact ⟨h3.trans h1, h4.trans h2⟩

/-- The PCB of a process that is moved to level 0. -/
def Pcb.boosted (q : Pcb) : Pcb :=
  { q with priority := 0, timeInQueue := 0, promotions := q.promotions + 1 }

/-- **One round**: the head `x` of the level `j` goes to the end of level 0. -/
theorem boostOne_moves (h : Threaded s.links (update noAfter (.level 0) a) qs) (hj : j ≠ 0)
    (hk : qs (.level j) = x :: xs) : ∃ l,
      boostOne s j = some { s with links := l, pcb := update s.pcb x (s.pcb x).boosted } ∧
      Threaded l (update noAfter (.level 0) xs.head?)
        (push (update qs (.level j) xs) (.level 0) x) ∧
      (∀ k, x ∉ update qs (.level j) xs k) ∧
      (Counted s.links qs → Counted l (push (update qs (.level j) xs) (.level 0) x)) ∧
      ∀ i, i ≠ 0 → i ≠ j → (l.queue (.level i)).count = (s.links.queue (.level i)).count := by
  have hne : QueueId.level j ≠ .level 0 := fun he => hj (QueueId.level.inj he)
  obtain ⟨l₁, hd, ht₁, htk, hnext, hprev⟩ := dequeue_spec h hk (update_of_ne hne _ _)
  have hxout : ∀ k, x ∉ update qs (.level j) xs k := fun k hx => by
    have hnd := (h.queue (.level j)).nodup
    rw [hk] at hnd
    by_cases he : k = .level j
    · subst he
      rw [update_self] at hx
      exact (List.nodup_cons.mp hnd).1 hx
    · rw [update_of_ne he] at hx
      exact he (h.disjoint x _ _ hx (by simp [hk]))
  obtain ⟨l₂, hap, ht₂, had⟩ := append_spec (k := .level 0) ht₁ hxout hprev
  rw [update_idem, hnext] at ht₂
  refine ⟨l₂, ?_, ht₂, hxout, fun hc => ?_, fun i hi hij => ?_⟩
  · unfold boostOne
    simp only [hd, hap, Option.bind_eq_bind, Option.bind_some]
    rfl
  · exact (hc.take htk hk).add had (length_le_of_nodup (ht₁.queue _).nodup)
  · have hi0 : QueueId.level i ≠ .level 0 := fun he => hi (QueueId.level.inj he)
    have hij' : QueueId.level i ≠ .level j := fun he => hij (QueueId.level.inj he)
    have h1 := had (.level i)
    have h2 := htk (.level i)
    rw [if_neg hi0] at h1
    rw [if_neg hij'] at h2
    exact h1.trans h2

/-- The same with every process in its own queue. -/
theorem boostOne_shape (h : Raising s a qs) (hj : j ≠ 0) (hk : qs (.level j) = x :: xs)
    (hs : boostOne s j = some s') : ∃ qs', qs' (.level j) = xs ∧ Raising s' xs.head? qs' ∧
      Raised s qs j s' qs' := by
  have hne : QueueId.level j ≠ .level 0 := fun he => hj (QueueId.level.inj he)
  obtain ⟨l, hs', ht, hxout, hcount, hlevel⟩ := boostOne_moves h.threaded hj hk
  obtain rfl := Option.some.inj (hs'.symm.trans hs)
  have hlist : push (update qs (.level j) xs) (.level 0) x (.level j) = xs := by
    unfold push
    rw [update_of_ne hne, update_self]
  have hsub : ∀ y ∈ xs, y ∈ qs (.level j) := fun y hy => by
    rw [hk]
    exact List.mem_cons_of_mem x hy
  have hmem : ∀ y, OnList (update qs (.level j) xs) y ↔ OnList qs y ∧ y ≠ x := fun y => by
    rw [onList_update h.threaded hsub]
    constructor
    · rintro ⟨hy, hy'⟩
      refine ⟨hy, fun he => hxout (.level j) ?_⟩
      rw [update_self, ← he]
      exact hy' (by simp [hk, he])
    · rintro ⟨hy, hne⟩
      refine ⟨hy, fun hy' => ?_⟩
      rw [hk] at hy'
      exact (List.mem_cons.mp hy').resolve_left hne
  refine ⟨_, hlist, ⟨h.type, ht, fun k y hy => ?_⟩, fun y => ?_, hcount, fun i hi hij => ?_⟩
  · by_cases hyx : y = x
    · subst hyx
      have hk0 : k = .level 0 := by
        by_contra he
        unfold push at hy
        rw [update_of_ne he] at hy
        exact hxout k hy
      rw [hk0]
      unfold State.homeQueue
      simp [h.type, Pcb.boosted]
    · have hy' : y ∈ qs k := by
        unfold push at hy
        by_cases he : k = .level 0
        · subst he
          rw [update_self, update_of_ne (Ne.symm hne)] at hy
          simpa [hyx] using hy
        · rw [update_of_ne he] at hy
          by_cases hkj : k = .level j
          · subst hkj
            rw [update_self] at hy
            exact hsub y hy
          · rwa [update_of_ne hkj] at hy
      rw [← h.home k y hy']
      refine homeQueue_congr rfl ?_
      simp only [update_of_ne hyx]
  · rw [onList_push, hmem]
    by_cases hyx : y = x
    · subst hyx
      simp only [or_true, true_iff]
      exact ⟨.level j, by simp [hk]⟩
    · simp [hyx]
  · have hi0 : QueueId.level i ≠ .level 0 := fun he => hi (QueueId.level.inj he)
    have hij' : QueueId.level i ≠ .level j := fun he => hij (QueueId.level.inj he)
    refine ⟨?_, hlevel i hi hij⟩
    unfold push
    rw [update_of_ne hi0, update_of_ne hij']

/-- The loop empties the level `j`. -/
theorem boostLevel_shape (h : Raising s a qs) (hj : j ≠ 0) (ha : qs (.level j) = [] → a = none)
    (hs : boostLevel j (qs (.level j)).length s = some s') :
    ∃ qs', Raising s' none qs' ∧ Raised s qs j s' qs' := by
  generalize hxs : qs (.level j) = xs at hs ha
  induction xs generalizing s qs a with
  | nil =>
    cases hs
    rw [ha rfl] at h
    exact ⟨qs, h, .refl _ _⟩
  | cons x xs ih =>
    obtain ⟨s₁, h1, h2⟩ := Option.bind_eq_some_iff.mp hs
    obtain ⟨qs₁, hl₁, hr₁, hd₁⟩ := boostOne_shape h hj hxs h1
    obtain ⟨qs₂, hr₂, hd₂⟩ := ih hr₁ hl₁ h2 fun hnil => by rw [hnil]; rfl
    exact ⟨qs₂, hr₂, hd₁.trans hd₂⟩

/-- A loop that is entered takes all processes of its level. -/
theorem boostCount_shape (h : Raising s none qs) (hj : j ≠ 0)
    (hok : (s.links.queue (.level j)).count ≠ 0 →
      (s.links.queue (.level j)).count.toNat = (qs (.level j)).length)
    (hs : boostLevel j (s.links.queue (.level j)).count.toNat s = some s') :
    ∃ qs', Raising s' none qs' ∧ Raised s qs j s' qs' := by
  by_cases h0 : (s.links.queue (.level j)).count = 0
  · rw [h0] at hs
    cases hs
    exact ⟨qs, h, .refl _ _⟩
  · rw [hok h0] at hs
    exact boostLevel_shape h hj (fun _ => rfl) hs

/-- **The priority boost loses no process** if the counts of the lower levels are right. -/
theorem boost_shape (ht : s.config.type = .mlfq) (h : Shape s qs) (hok : BoostOk s)
    (hs : boostPriority s = some s') : ∃ qs', Shape s' qs' ∧ (∀ p, OnList qs' p ↔ OnList qs p) ∧
      (Counted s.links qs → Counted s'.links qs') := by
  have hself : update noAfter (.level 0) (none : Option Slot) = noAfter := update_eq_self _ _
  have hr : Raising s none qs := ⟨ht, by rw [hself]; exact h.threaded, h.home⟩
  unfold BoostOk at hok
  rw [h.list] at hok
  unfold boostPriority at hs
  obtain ⟨s₁, h1, hs⟩ := Option.bind_eq_some_iff.mp hs
  obtain ⟨s₂, h2, h3⟩ := Option.bind_eq_some_iff.mp hs
  obtain ⟨qs₁, hr₁, hd₁⟩ := boostCount_shape hr (by decide) (hok 1 (by decide)) h1
  obtain ⟨hl₂, hc₂⟩ := hd₁.level 2 (by decide) (by decide)
  obtain ⟨hl₃, hc₃⟩ := hd₁.level 3 (by decide) (by decide)
  obtain ⟨qs₂, hr₂, hd₂⟩ := boostCount_shape hr₁ (by decide) (by
    rw [hl₂, hc₂]
    exact hok 2 (by decide)) h2
  obtain ⟨hl₃', hc₃'⟩ := hd₂.level 3 (by decide) (by decide)
  obtain ⟨qs₃, hr₃, hd₃⟩ := boostCount_shape hr₂ (by decide) (by
    rw [hl₃', hc₃', hl₃, hc₃]
    exact hok 3 (by decide)) h3
  refine ⟨qs₃, ⟨by rw [← hself]; exact hr₃.threaded, hr₃.home⟩, fun p => ?_, fun hc => ?_⟩
  · rw [hd₃.onList, hd₂.onList, hd₁.onList]
  · exact hd₃.counted (hd₂.counted (hd₁.counted hc))

/-! ## `scheduler_tick` -/

/-- If the time slice of the current process ends, it is alone; a boost finds the counts right. -/
def TickOk (s : State) : Prop :=
  ∀ c ∈ s.current, (s.expires c → s.Lone c) ∧ (s.boostDue → BoostOk s)

instance (s : State) : Decidable (TickOk s) := by delta TickOk; infer_instance

theorem onList_afterYield : OnList (s.afterYield qs c) p ↔
    OnList qs p ∨ s.config.type = .rr ∧ p = c := by
  unfold State.afterYield
  split
  · rename_i ht
    rw [onList_push]
    simp [ht]
  · rename_i ht
    simp [ht]

/-- **A tick keeps every process in its list**, and only adds the current one. -/
theorem tick_shape (h : Shape s qs) (hok : TickOk s) (hs : tick s = some s') :
    ∃ qs', Shape s' qs' ∧ (∀ p, OnList qs p → OnList qs' p) ∧
      (∀ p, OnList qs' p → OnList qs p ∨ s.current = some p) ∧
      (Counted s.links qs → Counted s'.links qs') := by
  rcases tick_cases hs with ⟨-, rfl⟩ | ⟨c, s₁, hc, hsl, hb⟩
  · exact ⟨qs, h.congr rfl fun _ _ => rfl, fun _ => id, fun _ => .inl, id⟩
  · obtain ⟨hlone, hboost⟩ := hok c hc
    have hst := charged_effect s c
    have hhome : ∀ p, (s.charged c).homeQueue p = s.homeQueue p := fun p =>
      homeQueue_congr hst.config (hst.priority p)
    have hsh : Shape (s.charged c) qs := h.congr rfl fun p _ => hhome p
    -- the lists after the time slice, and what a boost needs to know about them
    obtain ⟨qs₁, h₁, hon, hto, hcnt, hcount⟩ : ∃ qs₁, Shape s₁ qs₁ ∧
        (∀ p, OnList qs p → OnList qs₁ p) ∧
        (∀ p, OnList qs₁ p → OnList qs p ∨ s.current = some p) ∧
        (Counted s.links qs → Counted s₁.links qs₁) ∧
        (s.config.type = .mlfq → s₁.config.type = .mlfq ∧ qs₁ = qs ∧
          ∀ k, (s₁.links.queue k).count = (s.links.queue k).count) := by
      rcases hsl with ⟨he, hy⟩ | ⟨-, rfl⟩
      · have hl : (s.charged c).Lone c := by
          obtain ⟨h1, h2⟩ := hlone he
          refine ⟨?_, (charged_pickWith s c).trans h2⟩
          rw [hhome]
          exact h1
        have hc' : (s.charged c).current = some c := hst.current.trans hc
        obtain ⟨h1, h2, h3⟩ := yield_shape hsh hc' hl hy
        refine ⟨_, h1, fun p hp => onList_afterYield.mpr (.inl hp), fun p hp => ?_, h2,
          fun ht => ⟨?_, ?_, h3 ?_⟩⟩
        · refine (onList_afterYield.mp hp).imp id ?_
          rintro ⟨-, rfl⟩
          exact hc
        · rw [(yield_effect hc' hy).1.config]
          exact ht
        · unfold State.afterYield
          rw [if_neg]
          exact fun hr => nomatch ht.symm.trans hr
        · exact fun hr => nomatch ht.symm.trans hr
      · exact ⟨qs, hsh, fun _ => id, fun _ => .inl, id, fun ht => ⟨ht, rfl, fun _ => rfl⟩⟩
    rcases hb with ⟨-, hst', hl⟩ | ⟨hdue, s₂, s₃, ⟨hst', hl⟩, hb, rfl⟩
    · refine ⟨qs₁, h₁.table hl hst'.toSameProcs, hon, hto, ?_⟩
      rw [hl]
      exact hcnt
    · obtain ⟨ht, hqs, hk⟩ := hcount hdue.1
      have h₂ : Shape s₂ qs₁ := h₁.table hl hst'.toSameProcs
      have hbok : BoostOk s₂ := fun i hi => by
        have hok' := hboost hdue i hi
        rw [h.list] at hok'
        rw [hl, hk, h₂.list, hqs]
        exact hok'
      have ht₂ : s₂.config.type = .mlfq := by
        rw [hst'.config]
        exact ht
      obtain ⟨qs', h3, h4, h5⟩ := boost_shape ht₂ h₂ hbok hb
      refine ⟨qs', h3.congr rfl fun _ _ => rfl, fun p hp => (h4 p).mpr (hon p hp),
        fun p hp => hto p ((h4 p).mp hp), fun hc => h5 ?_⟩
      rw [hl]
      exact hcnt hc

/-- Only the state of the current process changes, and that one stays. -/
theorem tick_lone (hok : TickOk s) (hs : tick s = some s') : s'.config = s.config ∧
    s'.current = s.current ∧ ∀ p, (s'.pcb p).state = (s.pcb p).state ∨
      s.current = some p ∧ (s'.pcb p).state = .ready := by
  rcases tick_effect hs with ⟨-, hst⟩ | ⟨c, hc, he, hcase⟩
  · exact ⟨hst.config, hst.current, fun p => .inl (hst.state p)⟩
  · rcases hcase with ⟨-, hst⟩ | ⟨x, hx, hne, -⟩
    · refine ⟨hst.config, hst.current, fun p => ?_⟩
      have hp := hst.state p
      rw [setState_state] at hp
      by_cases hpc : p = c
      · subst hpc
        rw [if_pos rfl] at hp
        exact .inr ⟨hc, hp⟩
      · rw [if_neg hpc] at hp
        exact .inl hp
    · have hl : s.Lone c := (hok c hc).1 he
      exact absurd (Option.some.inj (hx.symm.trans hl.2)) hne

/-! ## All calls -/

/-- No call links a process that is linked already, or unlinks one by stale links. -/
def LinkOk (s : State) : Op → Prop
  | .create _ _ => ∀ p ∈ findFreePcb s, p ∉ s.list (s.homeQueue p)
  | .terminate pid => ∀ i ∈ findProcess s pid, RetireOk s i
  | .yield => ∀ c ∈ s.current, s.Lone c
  | .tick => TickOk s
  | .schedule => ScheduleOk s

instance (s : State) (op : Op) : Decidable (LinkOk s op) := by
  delta LinkOk
  exact match op with
  | .create _ _ | .terminate _ | .yield | .tick | .schedule => inferInstance

/-- With no current process every dispatch is harmless. -/
theorem scheduleOk_of_none (hc : s.current = none) : ScheduleOk s :=
  fun _ _ _ hcc => nomatch hc.symm.trans hcc

/-- **The lists when the dispatch after a termination starts.** -/
theorem vacated_shape (h : Shape s qs) (hok : RetireOk s i) :
    Shape { retire s i with current := none } (s.afterRetire qs i) ∧
      (Counted s.links qs → LosesOne s qs i →
        Counted ({ retire s i with current := none } : State).links (s.afterRetire qs i)) := by
  obtain ⟨h1, h2⟩ := retire_shape h hok
  exact ⟨h1.congr rfl fun _ _ => rfl, h2⟩

end OSCompas.Scheduler
