import OSCompas.Scheduler.Vacancy

/-!
# What a termination leaves of the queues

`scheduler_terminate_process` over well-formed queues that hold exactly the ready processes, for
every policy and every process it finds.

* `State.vacated` — the state the dispatch at its end starts from;
* `without i qs` — the lists without `i`.

Principal results: `Orderly.stale_keeps_iff` (the process is in no queue and is taken out),
`Orderly.shape_keeps_iff` (it waits, or is not taken out) and `terminate_keeps_iff`.
-/

set_option autoImplicit false

namespace OSCompas.Scheduler

open Function Intrusive Runs

variable {s s' t : State} {qs ws : Queues} {k : QueueId} {y i : Slot} {xs ys : List Slot}
  {pid : UInt32}

/-! ## The termination of a process that does not wait -/

/-- What the dispatch after a termination has to leave. -/
theorem othersKept_iff (hrun : s.RunsPid pid) (hk : s.firstIn (s.others i) = some k)
    (hy : s.others i k = y :: ys) : OthersKept s s' pid i ↔
      s'.current = some y ∧ s'.others i = update (s.others i) k ys := by
  constructor
  · intro h
    obtain ⟨x, xs, hx, hc, ho⟩ := h.takes hrun k hk
    obtain ⟨rfl, rfl⟩ := List.cons.inj (hx.symm.trans hy)
    exact ⟨hc, ho⟩
  · rintro ⟨hc, ho⟩
    refine ⟨fun hno => (nomatch (hno hrun).symm.trans hk), fun _ k' hk' => ?_⟩
    obtain rfl := Option.some.inj (hk.symm.trans hk')
    exact ⟨y, ys, hy, hc, ho⟩

/-- Nobody is to run. -/
theorem othersKept_iff_same (hno : s.RunsPid pid → s.firstIn (s.others i) = none) :
    OthersKept s s' pid i ↔ s'.others i = s.others i :=
  ⟨fun h => h.stays hno, fun h => ⟨fun _ => h, fun hrun _ hk => nomatch (hno hrun).symm.trans hk⟩⟩

/-- The state the dispatch starts from. -/
def State.vacated (s : State) (i : Slot) : State := { retire s i with current := none }

theorem vacated_links (hu : ¬ s.unmanaged i) :
    (s.vacated i).links = s.links.unlink (s.homeQueue i) i :=
  (retire_links s i).trans (if_neg hu)

theorem Orderly.vacated_count (h : Orderly s qs) (hu : ¬ s.unmanaged i) (k : QueueId) :
    ((s.vacated i).links.queue k).count > 0 ↔
      if k = s.homeQueue i then 1 < (qs k).length else qs k ≠ [] := by
  have hc := unlink_count s.links (s.homeQueue i) i k
  rw [vacated_links hu, hc]
  by_cases hk : k = s.homeQueue i
  · subst hk
    rw [if_pos rfl, if_pos rfl, count_pos_iff, ne_eq, ← UInt32.toNat_inj, unlinkCount_toNat,
      h.counted]
    have h0 : (0 : UInt32).toNat = 0 := rfl
    omega
  · rw [if_neg hk, if_neg hk, counted_pos h.counted]

theorem vacated_scan (s : State) (i : Slot) : (s.vacated i).scan = s.scan := by
  unfold State.scan
  rw [show (s.vacated i).config = s.config from (vacated_effect s i).1.config]

/-- The policy finds the same queue, unless the count of its only process was taken down. -/
theorem Orderly.vacated_pickQueue (h : Orderly s qs) (hu : ¬ s.unmanaged i)
    (hy : Heads s qs k y ys) (hcount : k = s.homeQueue i → ys ≠ []) :
    (s.vacated i).pickQueue = some k := by
  unfold State.pickQueue
  rw [vacated_scan]
  refine find?_shrink hy.first (decide_eq_true ?_) fun k' hk' => decide_eq_true ?_
  · rw [h.vacated_count hu]
    by_cases hk : k = s.homeQueue i
    · rw [if_pos hk, hy.list, List.length_cons]
      have hpos := List.length_pos_iff.mpr (hcount hk)
      omega
    · rw [if_neg hk, hy.list]
      simp
  · have hk' := (h.vacated_count hu k').mp (of_decide_eq_true hk')
    intro hnil
    rw [hnil] at hk'
    split at hk'
    · cases hk'
    · exact hk' rfl

theorem Orderly.vacated_nobody (h : Orderly s qs) (hu : ¬ s.unmanaged i)
    (hno : s.firstIn qs = none) : (s.vacated i).pickQueue = none := by
  unfold State.pickQueue
  rw [vacated_scan]
  refine find?_none_shrink hno fun k hk => decide_eq_true ?_
  have hk := (h.vacated_count hu k).mp (of_decide_eq_true hk)
  intro hnil
  rw [hnil] at hk
  split at hk
  · cases hk
  · exact hk rfl

/-- The queue with the only process is passed over. -/
theorem Orderly.uncounted_pick (h : Orderly s qs) (hu : ¬ s.unmanaged i)
    (hlist : qs (s.homeQueue i) = [y]) : (s.vacated i).pick ≠ some y := by
  intro hp
  obtain ⟨k, hk, hhead⟩ := Option.bind_eq_some_iff.mp hp
  have hcount : ((s.vacated i).links.queue k).count > 0 := by
    have hf := List.find?_some hk
    exact of_decide_eq_true hf
  rw [h.vacated_count hu] at hcount
  have hne : k ≠ s.homeQueue i := fun he => by
    rw [if_pos he, he, hlist] at hcount
    exact absurd hcount (by simp)
  rw [vacated_links hu, unlinked_head, if_neg fun hc => hne hc.1] at hhead
  have hmem := (h.threaded.queue k).mem_of_head hhead
  exact hne (h.threaded.disjoint y _ _ hmem (by simp [hlist]))

/-- The head the policy finds is another one only if the links of `i` are not harmless. -/
theorem Orderly.stale_head (h : Orderly s qs) (hu : ¬ s.unmanaged i) (hy : Heads s qs k y ys)
    (hyi : y ≠ i) (hok : StaleOk s pid i) : ((s.vacated i).links.queue k).head = some y := by
  have hhead : (s.links.queue k).head = some y := by
    rw [(h.threaded.queue k).head_eq, hy.list, List.head?_cons]
  rw [vacated_links hu, unlinked_head]
  by_cases hw : k = s.homeQueue i ∧ s.links.prev i = none
  · rw [if_pos hw]
    unfold StaleOk at hok
    rw [hw.2, ← hw.1, hhead] at hok
    exact (skip_eq_some hyi).mp hok
  · rw [if_neg hw]
    exact hhead

/-- The dispatch after the end of a process that does not wait. -/
theorem Orderly.vacated_keeps_iff (h : Orderly s qs) (hu : ¬ s.unmanaged i)
    (hi : (s.pcb i).state ≠ .ready) (hrun : s.RunsPid pid) (hy : Heads s qs k y ys) :
    (∃ s', schedule (s.vacated i) = some s' ∧ OthersKept s s' pid i) ↔
      StaleOk s pid i ∧ ¬ Uncounted s i := by
  have hothers := h.others_out (h.not_mem hi)
  have hyi : y ≠ i := fun he => h.not_mem hi k (by simp [← he, hy.list])
  have hkept : ∀ s', OthersKept s s' pid i ↔
      s'.current = some y ∧ s'.others i = update qs k ys := fun s' => by
    rw [othersKept_iff hrun (by rw [hothers, hy.first]) (by rw [hothers, hy.list]), hothers]
  have hmiss : (s.vacated i).pick ≠ some y →
      ¬ ∃ s', schedule (s.vacated i) = some s' ∧ OthersKept s s' pid i := by
    rintro hp ⟨s', hs, hk⟩
    exact hp ((schedule_idle_current rfl hs).symm.trans ((hkept s').mp hk).1)
  have hunc : Uncounted s i ↔ k = s.homeQueue i ∧ ys = [] := by
    unfold Uncounted
    rw [h.toShape.list, hy.first, Option.some.injEq]
    refine and_congr_right fun hk => ?_
    rw [← hk, hy.list, List.length_cons, ← List.length_eq_zero_iff]
    omega
  by_cases hcount : k = s.homeQueue i ∧ ys = []
  · refine iff_of_false (hmiss (h.uncounted_pick hu ?_)) fun hc => hc.2 (hunc.mpr hcount)
    rw [← hcount.1, hy.list, hcount.2]
  · have hpick := h.vacated_pickQueue hu hy fun hk hnil => hcount ⟨hk, hnil⟩
    have hp := (vacated_effect s i).1
    by_cases hhead : ((s.vacated i).links.queue k).head = some y
    · obtain ⟨s', hs, hd⟩ := schedule_idle rfl hpick hhead
        ((hp.home y).trans (h.home k y (by simp [hy.list])))
      have v : Vacancy s (s.vacated i) s' qs i k y ys :=
        ⟨h, hi, hy, hp, vacated_links hu, hhead, hd⟩
      rw [← v.dispatched_others hrun, hunc]
      constructor
      · rintro ⟨s'', hs'', hk⟩
        obtain rfl := Option.some.inj (hs.symm.trans hs'')
        exact ⟨((hkept s').mp hk).2, hcount⟩
      · rintro ⟨ho, -⟩
        exact ⟨s', hs, (hkept s').mpr ⟨hd.current, ho⟩⟩
    · refine iff_of_false (hmiss fun hpk => hhead ?_) fun hc => hhead (h.stale_head hu hy hyi hc.1)
      unfold State.pick at hpk
      rwa [hpick, Option.bind_some] at hpk

/-- **A process that does not wait ends.** -/
theorem Orderly.stale_keeps_iff (h : Orderly s qs) (hf : findProcess s pid = some i)
    (hu : ¬ s.unmanaged i) (hi : (s.pcb i).state ≠ .ready) :
    (∃ s', terminateProcess s pid = some s' ∧ OthersKept s s' pid i) ↔
      StaleOk s pid i ∧ (s.RunsPid pid → ¬ Uncounted s i) := by
  have hothers := h.others_out (h.not_mem hi)
  obtain ⟨hyes, hno⟩ := terminate_eq hf
  by_cases hrun : s.RunsPid pid
  · rw [hyes hrun]
    have hvac : ({ retire s i with current := none } : State) = s.vacated i := rfl
    rw [hvac]
    cases hfirst : s.firstIn qs with
    | none =>
      have hfront : s.front = none := by
        unfold State.front
        rw [h.toShape.list, hfirst]
        rfl
      rw [schedule_nobody (h.vacated_nobody hu hfirst)]
      have hsame : s.RunsPid pid → s.firstIn (s.others i) = none := fun _ => by
        rw [hothers, hfirst]
      have hst : StaleOk s pid i ↔ OthersKept s (s.vacated i) pid i := by
        rw [othersKept_iff_same hsame, retired_others h hi (vacated_links hu)]
        rintro a ⟨-, y, hy, -⟩
        exact nomatch hfront.symm.trans hy
      have hunc : ¬ Uncounted s i := fun hc => by
        have h1 := hc.1
        rw [h.toShape.list, hfirst] at h1
        cases h1
      simp [hst, hunc]
    | some k =>
      obtain ⟨y, ys, hlist⟩ := firstIn_eq hfirst
      simp only [hrun, true_implies]
      exact h.vacated_keeps_iff hu hi hrun ⟨hfirst, hlist⟩
  · rw [hno hrun]
    have hsame : s.RunsPid pid → s.firstIn (s.others i) = none := fun hr => absurd hr hrun
    have hst : StaleOk s pid i ↔ OthersKept s (retire s i) pid i := by
      rw [othersKept_iff_same hsame]
      exact (retired_others h hi (vacated_links hu) fun a hm => hrun hm.1).symm
    simp [hst, hrun]

/-! ## The termination of a process that waits, or that is not taken out -/

/-- The lists without `i`. -/
def without (i : Slot) (qs : Queues) : Queues := fun k => (qs k).filter (· ≠ i)

theorem without_update (i : Slot) (qs : Queues) (k : QueueId) (xs : List Slot) :
    without i (update qs k xs) = update (without i qs) k (xs.filter (· ≠ i)) := by
  funext k'
  unfold without
  by_cases hk : k' = k
  · rw [hk, update_self, update_self]
  · rw [update_of_ne hk, update_of_ne hk]

theorem shape_others (h : Shape s qs) : s.others i = without i qs := by
  unfold State.others
  rw [h.list]
  rfl

/-- The others stay in the lists. -/
theorem Orderly.without_afterRetire (h : Orderly s qs)
    (hin : s.unmanaged i ∨ i ∈ qs (s.homeQueue i)) :
    without i (s.afterRetire qs i) = without i qs := by
  unfold State.afterRetire
  by_cases hu : s.unmanaged i
  · rw [if_pos hu]
  · have hi := hin.resolve_left hu
    rw [if_neg hu, if_pos hi, without_update, (h.nodup _).erase_eq_filter]
    funext k
    by_cases hk : k = s.homeQueue i
    · subst hk
      rw [update_self]
      unfold without
      rw [List.filter_filter]
      refine List.filter_congr fun y _ => ?_
      by_cases hy : y = i <;> simp [hy]
    · rw [update_of_ne hk]

/-- **A dispatch with no current process over well-formed queues.** -/
theorem schedule_front (h : Shape t ws) (hc : Counted t.links ws) (hcur : t.current = none)
    (hf : t.firstIn ws = some k) (hl : ws k = y :: ys) :
    ∃ s', schedule t = some s' ∧ s'.current = some y ∧ Shape s' (update ws k ys) := by
  have hpick : t.pickQueue = some k := (pickQueue_counted hc).trans hf
  have hhead : (t.links.queue k).head = some y := by
    rw [(h.threaded.queue k).head_eq, hl, List.head?_cons]
  have hhome : t.homeQueue y = k := h.home k y (by simp [hl])
  obtain ⟨s', hs, hd⟩ := schedule_idle hcur hpick hhead hhome
  refine ⟨s', hs, hd.current, ?_⟩
  obtain ⟨hsh, -⟩ := schedule_shape h (scheduleOk_of_none hcur) hs
  have hp : t.pick = some y := by
    unfold State.pick
    rw [hpick]
    exact hhead
  unfold State.afterSchedule at hsh
  simp only [hp, hcur, hhome, hl, List.tail_cons] at hsh
  exact hsh

theorem firstIn_without (hf : s.firstIn qs = some k) (hl : qs k = y :: ys) (hy : y ≠ i) :
    s.firstIn (without i qs) = some k ∧ without i qs k = y :: ys.filter (· ≠ i) := by
  have hk : without i qs k = y :: ys.filter (· ≠ i) := by
    unfold without
    rw [hl]
    simp [hy]
  refine ⟨find?_shrink hf (decide_eq_true (by simp [hk])) fun k' hk' => decide_eq_true ?_, hk⟩
  intro hnil
  refine of_decide_eq_true hk' ?_
  unfold without
  rw [hnil]
  rfl

theorem firstIn_without_none (hf : s.firstIn qs = none) : s.firstIn (without i qs) = none := by
  refine find?_none_shrink hf fun k hk => decide_eq_true fun hnil => of_decide_eq_true hk ?_
  unfold without
  rw [hnil]
  rfl

/-- Nobody else waits. -/
theorem Orderly.firstIn_others (h : Orderly s qs) : s.firstIn (without i qs) = none ↔
    ∀ p, (s.pcb p).state = .ready → p = i := by
  unfold State.firstIn
  rw [List.find?_eq_none]
  constructor
  · intro hno p hp
    by_contra hpi
    have hmem := h.mem_iff.mpr hp
    refine hno _ (homeQueue_mem_scan s p) (decide_eq_true ?_)
    exact List.ne_nil_of_mem (List.mem_filter.mpr ⟨hmem, decide_eq_true hpi⟩)
  · intro hall k _ hk
    obtain ⟨p, hp⟩ := List.exists_mem_of_ne_nil _ (of_decide_eq_true hk)
    obtain ⟨hmem, hne⟩ := List.mem_filter.mp hp
    exact of_decide_eq_true hne (hall p ((h.ready p).mp ⟨k, hmem⟩))

/-- The process that ends is picked itself: nobody else may wait. -/
theorem Orderly.self_picked_iff (h : Orderly s qs) (hrun : s.RunsPid pid)
    (hcur : s'.current = some i) (hsame : s'.others i = s.others i) :
    OthersKept s s' pid i ↔ ∀ p, (s.pcb p).state = .ready → p = i := by
  rw [← h.firstIn_others, ← shape_others h.toShape]
  constructor
  · intro hkept
    cases hz : s.firstIn (s.others i) with
    | none => rfl
    | some k =>
      obtain ⟨x, xs, hx, hc, -⟩ := hkept.takes hrun k hz
      obtain rfl := Option.some.inj (hcur.symm.trans hc)
      have hmem : i ∈ s.others i k := by simp [hx]
      exact absurd rfl (of_decide_eq_true (List.mem_filter.mp hmem).2)
  · intro hnobody
    exact (othersKept_iff_same fun _ => hnobody).mpr hsame

/-- **A process that waits, or that is not taken out, ends**: only a process that is picked though
it is terminated goes wrong. -/
theorem Orderly.shape_keeps_iff (h : Orderly s qs) (hf : findProcess s pid = some i)
    (hin : s.unmanaged i ∨ (s.pcb i).state = .ready) :
    (∃ s', terminateProcess s pid = some s' ∧ OthersKept s s' pid i) ↔
      (s.unmanaged i → s.RunsPid pid → s.front = some i →
        ∀ p, (s.pcb p).state = .ready → p = i) := by
  have hin : s.unmanaged i ∨ i ∈ qs (s.homeQueue i) := hin.imp_right h.mem_iff.mpr
  have hothers : s.others i = without i (s.afterRetire qs i) := by
    rw [h.without_afterRetire hin, shape_others h.toShape]
  have hok : RetireOk s i := by
    unfold RetireOk
    rw [h.toShape.list]
    exact hin.imp_right .inl
  obtain ⟨hsh, hcnt⟩ := retire_shape h.toShape hok
  have hcnt := hcnt h.counted (hin.imp_right .inl)
  obtain ⟨hyes, hno⟩ := terminate_eq hf
  by_cases hrun : s.RunsPid pid
  · rw [hyes hrun]
    have hvac : ({ retire s i with current := none } : State) = s.vacated i := rfl
    have hsh : Shape (s.vacated i) (s.afterRetire qs i) := hsh.congr rfl fun _ _ => rfl
    have hconf : (s.vacated i).config = s.config := (vacated_effect s i).1.config
    have hfirst : (s.vacated i).firstIn = s.firstIn := by
      funext ws
      unfold State.firstIn State.scan
      rw [hconf]
    rw [hvac]
    cases hk : s.firstIn (s.afterRetire qs i) with
    | none =>
      have hpick : (s.vacated i).pickQueue = none :=
        (pickQueue_counted (s := s.vacated i) hcnt).trans (by rw [hfirst, hk])
      rw [schedule_nobody hpick]
      have hnobody : s.firstIn (s.others i) = none := by
        rw [hothers]
        exact firstIn_without_none hk
      refine iff_of_true ⟨_, rfl, (othersKept_iff_same fun _ => hnobody).mpr ?_⟩ fun _ _ _ => ?_
      · rw [hothers, shape_others hsh]
      · rw [shape_others h.toShape] at hnobody
        exact h.firstIn_others.mp hnobody
    | some k =>
      obtain ⟨y, ys, hl⟩ := firstIn_eq hk
      obtain ⟨s', hs, hcur, hsh'⟩ := schedule_front hsh hcnt rfl (by rw [hfirst, hk]) hl
      have hrest : s'.others i = update (s.others i) k (ys.filter (· ≠ i)) := by
        rw [shape_others hsh', without_update, hothers]
      have hex : (∃ s', schedule (s.vacated i) = some s' ∧ OthersKept s s' pid i) ↔
          OthersKept s s' pid i := by
        rw [hs]
        simp
      rw [hex]
      by_cases hyi : y = i
      · subst hyi
        -- `y` still is in a list, so it was not taken out
        have hu : s.unmanaged y := by
          by_contra hu
          have hon : OnList (s.afterRetire qs y) y := ⟨k, by simp [hl]⟩
          rw [onList_afterRetire h.toShape] at hon
          rcases hon.2 with hc | hc | hc
          · exact hu hc
          · exact hc (hin.resolve_left hu)
          · exact hc.2 rfl
        have hafter : s.afterRetire qs y = qs := if_pos hu
        have hfront : s.front = some y := by
          unfold State.front
          rw [h.toShape.list, ← hafter, hk, Option.bind_some, hl, List.head?_cons]
        simp only [hu, hrun, hfront, true_implies]
        refine h.self_picked_iff hrun hcur ?_
        rw [hrest, shape_others h.toShape]
        have hkk : without y qs k = ys.filter (· ≠ y) := by
          rw [← hafter]
          unfold without
          rw [hl]
          simp
        rw [← hkk, update_eq_self]
      · obtain ⟨hk', hl'⟩ := firstIn_without hk hl hyi
        rw [← hothers] at hk' hl'
        refine iff_of_true ((othersKept_iff hrun hk' hl').mpr ⟨hcur, hrest⟩) fun hu _ hfr => ?_
        have hafter : s.afterRetire qs i = qs := if_pos hu
        unfold State.front at hfr
        rw [h.toShape.list, ← hafter, hk, Option.bind_some, hl, List.head?_cons] at hfr
        exact absurd (Option.some.inj hfr) hyi
  · rw [hno hrun]
    have hsame : s.RunsPid pid → s.firstIn (s.others i) = none := fun hr => absurd hr hrun
    refine iff_of_true ⟨_, rfl, (othersKept_iff_same hsame).mpr ?_⟩ fun _ hr => absurd hr hrun
    rw [hothers, shape_others hsh]

/-- **A termination leaves the others alone exactly if** the condition holds. -/
theorem terminate_keeps_iff (h : Orderly s qs) (hf : findProcess s pid = some i) :
    (∃ s', terminateProcess s pid = some s' ∧ OthersKept s s' pid i) ↔ TerminateOk s pid i := by
  unfold TerminateOk
  by_cases hu : s.unmanaged i
  · rw [if_pos hu, h.shape_keeps_iff hf (.inl hu)]
    simp [hu]
  · rw [if_neg hu]
    by_cases hi : (s.pcb i).state = .ready
    · rw [h.shape_keeps_iff hf (.inr hi)]
      simp [hu, hi]
    · rw [h.stale_keeps_iff hf hu hi]
      simp [hi]

/-- What a run can be asked about. -/
theorem Orderly.of_run {config : Config} (hrun : Reaches Step ShapeGuard (schedulerInit config) s)
    (hready : ((List.finRange MAX_PROCESSES).all fun p =>
      decide (p ∈ s.list (s.homeQueue p) ↔ (s.pcb p).state = .ready)) = true) :
    Orderly s s.list := by
  obtain ⟨qs, hsh, hc⟩ := run_counted hrun
  have hqs : s.list = qs := hsh.list
  rw [hqs] at hready ⊢
  refine ⟨hsh, hc, fun p => ?_⟩
  rw [hsh.onList_iff]
  exact of_decide_eq_true (List.all_eq_true.mp hready p (List.mem_finRange p))

/-- The second of three processes ends while it waits. -/
theorem terminate_keeps_iff_three : ∃ s, s.list .ready = [1, 2] ∧
    ((∃ s', terminateProcess s 2 = some s' ∧ OthersKept s s' 2 1) ↔ TerminateOk s 2 1) := by
  have hx : (exec step (fun s op => decide (ShapeGuard s op))
      (schedulerInit ⟨.rr, 10, 1, 0, 0⟩)
      [.create [] 0, .schedule, .create [] 0, .create [] 0]).map
      (fun s => (s.list .ready, findProcess s 2, (List.finRange MAX_PROCESSES).all fun p =>
        decide (p ∈ s.list (s.homeQueue p) ↔ (s.pcb p).state = .ready))) =
      some ([1, 2], some 1, true) := by decide +kernel
  obtain ⟨s, hs, hobs⟩ := Option.map_eq_some_iff.mp hx
  simp only [Prod.mk.injEq] at hobs
  obtain ⟨hlist, hf, hready⟩ := hobs
  exact ⟨s, hlist, terminate_keeps_iff (Orderly.of_run (run_of_exec hs) hready) hf⟩

/-- The running process ends while two wait: the queue is lost and nobody runs. -/
theorem terminate_loses_queue : ¬ ∀ s qs pid i, Orderly s qs → findProcess s pid = some i →
    ∃ s', terminateProcess s pid = some s' ∧ OthersKept s s' pid i := by
  intro hall
  have hx : (exec step (fun s op => decide (ShapeGuard s op))
      (schedulerInit ⟨.rr, 10, 1, 0, 0⟩)
      [.create [] 0, .schedule, .create [] 0, .create [] 0]).map
      (fun s => (decide (s.current = some 0 ∧ (s.pcb 0).pid = 1 ∧ findProcess s 1 = some 0 ∧
          s.firstIn (s.others 0) = some .ready ∧ (terminateProcess s 1).bind (·.current) = none),
        (List.finRange MAX_PROCESSES).all fun p =>
          decide (p ∈ s.list (s.homeQueue p) ↔ (s.pcb p).state = .ready))) =
      some (true, true) := by decide +kernel
  obtain ⟨s, hs, hobs⟩ := Option.map_eq_some_iff.mp hx
  simp only [Prod.mk.injEq, decide_eq_true_eq] at hobs
  obtain ⟨⟨hc, hpid, hf, hfirst, hend⟩, hready⟩ := hobs
  obtain ⟨s', hs', hkept⟩ := hall s _ 1 0 (Orderly.of_run (run_of_exec hs) hready) hf
  obtain ⟨x, xs, -, hx, -⟩ := hkept.takes ⟨0, hc, hpid⟩ .ready hfirst
  rw [hs', Option.bind_some, hx] at hend
  cases hend

end OSCompas.Scheduler
