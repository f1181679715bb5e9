import OSCompas.Lib.Span
import OSCompas.Kernel.Dead

/-!
# Process stacks

`scheduler_create_process` places the stack of a process at `0x1000000 + pid * 4096`, computed in
32 bits.  The place comes round again after `2 ^ 20` pids, while the process that was given it may
still be alive: the idle process always is.

* `State.stack` — the interval of a process;
* `StacksApart` — the stacks of the processes that are alive are disjoint and do not wrap;
* `StackOk` — the condition.

Principal results: `stack_eq`, `step_pagesApart` and `stacks_apart`.
-/

set_option autoImplicit false

namespace OSCompas.Kernel

open Function Runs

variable {H : Helpers} {s s' : State} {p q : Slot} {op : Op}

/-- The stack that was assigned to the process in the slot `p`. -/
def State.stack (s : State) (p : Slot) : Span :=
  ⟨(s.pcb p).stackBase.toNat, (s.pcb p).stackSize.toNat⟩

/-- **Stacks of processes that are alive are disjoint, and none goes around `2 ^ 32`.** -/
def StacksApart (s : State) : Prop :=
  (∀ p q, p ≠ q → Alive s p → Alive s q → (s.stack p).Apart (s.stack q)) ∧
    ∀ p, Alive s p → (s.stack p).hi ≤ 2 ^ 32

/-- Where the stack of a process comes to lie, in pages of `STACK_SIZE` bytes. -/
def stackPage (pid : UInt32) : Nat := (4096 + pid.toNat) % 2 ^ 20

/-- The condition on a call and the state before it: no process that is alive has a pid with the
20 low bits of the next one. -/
def StackOk (H : Helpers) (s : State) : Op → Prop
  | .create _ _ _ _ => ∀ a ∈ H.pcbAlloc s.table, ∀ q, Alive s q →
      (s.pcb q).pid.toNat % 2 ^ 20 ≠ a.2.nextPid.toNat % 2 ^ 20
  | .terminate _ _ => True
  | .reap _ => True
  | _ => False

/-- The calls that create and end processes. -/
def Lifecycle : Op → Prop
  | .create _ _ _ _ => True
  | .terminate _ _ => True
  | .reap _ => True
  | _ => False

instance (s : State) (p : Slot) : Decidable (Alive s p) := inferInstanceAs (Decidable (_ ∧ _ ∧ _))

instance (H : Helpers) (s : State) (op : Op) : Decidable (StackOk H s op) := by
  delta StackOk
  exact match op with
  | .create _ _ _ _ | .terminate _ _ | .reap _ | .schedule | .tick | .yield | .block | .wakeup _
  | .sleep _ | .setPriority _ _ => inferInstance

/-- `pcb_init` stores the pid it is given. -/
def Helpers.InitsPid (H : Helpers) : Prop :=
  ∀ q pid name type priority, (H.pcbInit q pid name type priority).pid = pid

/-! ## Places -/

theorem stackBase_eq (pid : UInt32) :
    (0x1000000 + pid * STACK_SIZE).toNat = stackPage pid * 4096 := by
  have hpid := pid.toNat_lt
  rw [UInt32.toNat_add, UInt32.toNat_mul]
  show (16777216 + pid.toNat * 4096 % 2 ^ 32) % 2 ^ 32 = (4096 + pid.toNat) % 2 ^ 20 * 4096
  omega

theorem stackPage_eq_iff (pid pid' : UInt32) :
    stackPage pid = stackPage pid' ↔ pid.toNat % 2 ^ 20 = pid'.toNat % 2 ^ 20 := by
  unfold stackPage
  omega

/-- What creation assigns to a process. -/
def Assigned (s : State) (p : Slot) : Prop :=
  (s.pcb p).stackBase = 0x1000000 + (s.pcb p).pid * STACK_SIZE ∧ (s.pcb p).stackSize = STACK_SIZE

/-- **A stack is one page of the size of a stack.** -/
theorem stack_eq (h : Assigned s p) : s.stack p = ⟨stackPage (s.pcb p).pid * 4096, 4096⟩ := by
  unfold State.stack
  rw [h.1, h.2, stackBase_eq]
  rfl

theorem stack_hi_le (h : Assigned s p) : (s.stack p).hi ≤ 2 ^ 32 := by
  rw [stack_eq h]
  have hpage : stackPage (s.pcb p).pid < 2 ^ 20 := Nat.mod_lt _ (by decide)
  show stackPage (s.pcb p).pid * 4096 + 4096 ≤ 2 ^ 32
  omega

/-- Two stacks are apart unless the pids agree in their 20 low bits. -/
theorem stack_apart_iff (hp : Assigned s p) (hq : Assigned s q) : (s.stack p).Apart (s.stack q) ↔
    (s.pcb p).pid.toNat % 2 ^ 20 ≠ (s.pcb q).pid.toNat % 2 ^ 20 := by
  rw [stack_eq hp, stack_eq hq, ← not_iff_not, not_not, ← stackPage_eq_iff]
  unfold Span.Apart Span.hi
  dsimp only
  omega

/-! ## Steps -/

/-- Every process that is alive was placed, and no two have pids that agree in 20 bits. -/
structure PagesApart (s : State) : Prop where
  assigned : ∀ p, Alive s p → Assigned s p
  pids : ∀ p q, p ≠ q → Alive s p → Alive s q →
    (s.pcb p).pid.toNat % 2 ^ 20 ≠ (s.pcb q).pid.toNat % 2 ^ 20

theorem PagesApart.stacksApart (h : PagesApart s) : StacksApart s := by
  refine ⟨fun p q hpq hp hq => ?_, fun p hp => stack_hi_le (h.assigned p hp)⟩
  exact (stack_apart_iff (h.assigned p hp) (h.assigned q hq)).mpr (h.pids p q hpq hp hq)

/-- Nobody comes alive, and who stays alive keeps its place. -/
def Fewer (s s' : State) : Prop :=
  ∀ q, Alive s' q → Alive s q ∧ (s'.pcb q).pid = (s.pcb q).pid ∧
    (s'.pcb q).stackBase = (s.pcb q).stackBase ∧ (s'.pcb q).stackSize = (s.pcb q).stackSize

theorem Fewer.pagesApart (h : Fewer s s') (hs : PagesApart s) : PagesApart s' := by
  refine ⟨fun p hp => ?_, fun p q hpq hp hq => ?_⟩
  · obtain ⟨ha, hpid, hbase, hsize⟩ := h p hp
    unfold Assigned
    rw [hpid, hbase, hsize]
    exact hs.assigned p ha
  · obtain ⟨hap, hpidp, -⟩ := h p hp
    obtain ⟨haq, hpidq, -⟩ := h q hq
    rw [hpidp, hpidq]
    exact hs.pids p q hpq hap haq

theorem Fewer.refl (s : State) : Fewer s s := fun _ h => ⟨h, rfl, rfl, rfl⟩

/-- One process ends, and the others are not touched. -/
theorem Fewer.ends (hp : ¬ Alive s' p)
    (ha : ∀ q, q ≠ p → s'.table.allocated q = s.table.allocated q)
    (hpcb : ∀ q, q ≠ p → s'.pcb q = s.pcb q) : Fewer s s' := by
  intro q hq
  have hqp : q ≠ p := fun he => hp (he ▸ hq)
  unfold Alive at hq ⊢
  rw [ha q hqp, hpcb q hqp] at hq
  rw [hpcb q hqp]
  exact ⟨hq, rfl, rfl, rfl⟩

/-- What `scheduler_terminate_process` does to the process table: the process it finds becomes a
zombie. -/
structure Kills (s s' : State) (p : Slot) : Prop where
  allocated : s'.table.allocated = s.table.allocated
  nextPid : s'.table.nextPid = s.table.nextPid
  other : ∀ q, q ≠ p → s'.pcb q = s.pcb q
  pid : (s'.pcb p).pid = (s.pcb p).pid
  state : (s'.pcb p).state = .zombie

theorem terminateProcess_kills (hH : H.Complete) {pid : UInt32}
    (hf : H.processTableFind s.table pid = some p)
    (hlive : ¬ ((s.pcb p).state = .terminated ∨ (s.pcb p).state = .zombie)) (exitCode : Int32) :
    Kills s (terminateProcess H s pid exitCode).1 p := by
  unfold terminateProcess
  simp only [hf, if_neg hlive]
  obtain ⟨l, hl⟩ := remove_eq (H := H) (s.setPcb p fun q => { q with exitCode := exitCode }) p
  rw [hl]
  set t : State := State.setState H (State.setPcb
    { s.setPcb p fun q => { q with exitCode := exitCode } with readyQueue := l } p _) p .zombie
    with ht
  have hkills : Kills s t p := by
    refine ⟨rfl, rfl, fun q hq => ?_, ?_, ?_⟩
    · rw [ht, State.setState, setPcb_of_ne _ _ hq, setPcb_of_ne _ _ hq]
      exact setPcb_of_ne s (fun q => { q with exitCode := exitCode }) hq
    · have hfirst : ((s.setPcb p fun q => { q with exitCode := exitCode }).pcb p).pid =
          (s.pcb p).pid := by rw [setPcb_self]
      rw [ht, State.setState, setPcb_self, hH.pcbSetState_eq, setPcb_self]
      exact hfirst
    · rw [ht, State.setState, setPcb_self, hH.pcbSetState_eq]
  -- what is left to write is neither a PCB nor the table
  split <;> exact ⟨hkills.allocated, hkills.nextPid, hkills.other, hkills.pid, hkills.state⟩

theorem terminateProcess_fewer (hH : H.Complete) (s : State) (pid : UInt32) (exitCode : Int32) :
    Fewer s (terminateProcess H s pid exitCode).1 := by
  cases hf : H.processTableFind s.table pid with
  | none =>
    unfold terminateProcess
    rw [hf]
    exact .refl s
  | some p =>
    by_cases hdead : (s.pcb p).state = .terminated ∨ (s.pcb p).state = .zombie
    · unfold terminateProcess
      simp only [hf, if_pos hdead]
      exact .refl s
    · have hk := terminateProcess_kills hH hf hdead exitCode
      exact .ends (fun ha => ha.2.1 hk.state) (fun _ _ => by rw [hk.allocated]) hk.other

/-- What `scheduler_reap_process` does to the process table: the slot of the zombie is free. -/
theorem reapProcess_frees (hH : H.Complete) {pid : UInt32}
    (hf : H.processTableFind s.table pid = some p) (hz : (s.pcb p).state = .zombie) :
    (∃ t : ProcessTable, (reapProcess H s pid).1.table = H.pcbFree t p ∧
      t.nextPid = s.table.nextPid ∧ t.allocated = s.table.allocated) ∧
    ∀ q, q ≠ p → (reapProcess H s pid).1.pcb q = s.pcb q := by
  unfold reapProcess
  simp only [hf]
  rw [if_neg (not_not.mpr hz)]
  dsimp only
  set t : State := State.setState H { s with stats := _ } p .terminated with ht
  refine ⟨⟨t.table, rfl, rfl, rfl⟩, fun q hq => ?_⟩
  obtain ⟨-, -, -, hother⟩ := hH.pcbFree_release t.table p
  refine (hother q hq).trans ?_
  exact setPcb_of_ne { s with stats := t.stats } _ hq

theorem reapProcess_fewer (hH : H.Complete) (s : State) (pid : UInt32) :
    Fewer s (reapProcess H s pid).1 := by
  cases hf : H.processTableFind s.table pid with
  | none =>
    unfold reapProcess
    rw [hf]
    exact .refl s
  | some p =>
    by_cases hz : (s.pcb p).state = .zombie
    · obtain ⟨⟨t, ht, -, hbits⟩, hother⟩ := reapProcess_frees hH hf hz
      obtain ⟨hfree, -⟩ := hH.pcbFree_release t p
      refine .ends (fun ha => ?_) (fun q hq => ?_) hother
      · have hbit := ha.1
        rw [ht, hfree, update_self] at hbit
        cases hbit
      · rw [ht, hfree, update_of_ne hq, hbits]
    · unfold reapProcess
      simp only [hf]
      rw [if_pos hz]
      exact .refl s

/-- What `scheduler_create_process` does to the process table. -/
structure Creates (s' : State) (t : ProcessTable) (p : Slot) : Prop where
  allocated : s'.table.allocated = t.allocated
  nextPid : s'.table.nextPid = t.nextPid + 1
  other : ∀ q, q ≠ p → s'.pcb q = t.processes q
  pid : (s'.pcb p).pid = t.nextPid
  assigned : Assigned s' p
  state : (s'.pcb p).state = .ready

theorem Pcb.mark_stack (q : Pcb) (type : SchedulerType) (priority : UInt8) :
    (q.mark type priority).pid = q.pid ∧ (q.mark type priority).stackBase = q.stackBase ∧
      (q.mark type priority).stackSize = q.stackSize := by
  unfold Pcb.mark
  split <;> exact ⟨rfl, rfl, rfl⟩

theorem createProcess_creates (hH : H.Complete) (hpid : H.InitsPid) (s : State) (name : List UInt8)
    (type : ProcessType) (priority : UInt8) (flags : UInt32) :
    (H.pcbAlloc s.table = none ∧ (createProcess H s name type priority flags) = (s, none)) ∨
      ∃ p t, H.pcbAlloc s.table = some (p, t) ∧
        (createProcess H s name type priority flags).2 = some p ∧
        Creates (createProcess H s name type priority flags).1 t p := by
  unfold createProcess
  cases H.pcbAlloc s.table with
  | none => exact .inl ⟨rfl, rfl⟩
  | some a =>
    obtain ⟨p, t⟩ := a
    refine .inr ⟨p, t, rfl, rfl, ?_⟩
    dsimp only
    simp only [State.setState, setPcb_setPcb, hH.pcbSetState_eq]
    set u : State := State.setPcb _ p _ with hu
    have htable : (addToReadyQueueInternal H u p).table = u.table := add_table H u p
    have hpcb : ∀ q, (addToReadyQueueInternal H u p).pcb q = u.pcb q := fun q => by
      unfold State.pcb
      rw [htable]
    have hnew : (u.pcb p).pid = t.nextPid ∧
        (u.pcb p).stackBase = 0x1000000 + t.nextPid * STACK_SIZE ∧
        (u.pcb p).stackSize = STACK_SIZE ∧ (u.pcb p).state = .ready := by
      rw [hu, setPcb_self]
      simp only [Pcb.mark_stack, and_true]
      exact hpid ..
    obtain ⟨hnext, hbase, hsize, hready⟩ := hnew
    constructor
    · show (addToReadyQueueInternal H u p).table.allocated = t.allocated
      rw [htable]
      rfl
    · show (addToReadyQueueInternal H u p).table.nextPid = t.nextPid + 1
      rw [htable]
      rfl
    · intro q hq
      refine (hpcb q).trans ?_
      rw [hu, setPcb_of_ne _ _ hq]
      rfl
    · exact (congrArg Pcb.pid (hpcb p)).trans hnext
    · show ((addToReadyQueueInternal H u p).pcb p).stackBase =
        0x1000000 + ((addToReadyQueueInternal H u p).pcb p).pid * STACK_SIZE ∧
        ((addToReadyQueueInternal H u p).pcb p).stackSize = STACK_SIZE
      rw [hpcb, hnext]
      exact ⟨hbase, hsize⟩
    · exact (congrArg Pcb.state (hpcb p)).trans hready

/-- Who is alive after a creation: the new process and those who were. -/
theorem Creates.alive {t : ProcessTable} (hc : Creates s' t p)
    (ha : t.allocated = update s.table.allocated p true) (hfree : s.table.allocated p = false)
    (hother : ∀ q, q ≠ p → t.processes q = s.pcb q) :
    Alive s' p ∧ ¬ Alive s p ∧ ∀ q, q ≠ p → s'.pcb q = s.pcb q ∧ (Alive s' q ↔ Alive s q) := by
  refine ⟨⟨?_, ?_⟩, fun hp => ?_, fun q hq => ?_⟩
  · rw [hc.allocated, ha, update_self]
  · rw [hc.state]
    exact ready_live
  · cases hfree.symm.trans hp.1
  · have hpcb : s'.pcb q = s.pcb q := (hc.other q hq).trans (hother q hq)
    refine ⟨hpcb, ?_⟩
    unfold Alive
    rw [hpcb, hc.allocated, ha, update_of_ne hq]

/-- **A creation keeps the stacks apart** exactly if the next pid has its 20 low bits for itself. -/
theorem createProcess_pagesApart (hH : H.Complete) (hpid : H.InitsPid) (hs : PagesApart s)
    (name : List UInt8) (type : ProcessType) (priority : UInt8) (flags : UInt32) :
    (StackOk H s (.create name type priority flags) →
      PagesApart (createProcess H s name type priority flags).1) ∧
    (¬ StackOk H s (.create name type priority flags) →
      ¬ StacksApart (createProcess H s name type priority flags).1) := by
  rcases createProcess_creates hH hpid s name type priority flags with ⟨hnone, he⟩ | ⟨p, t, ht, -, hc⟩
  · rw [he]
    refine ⟨fun _ => hs, fun hno => absurd ?_ hno⟩
    intro a ha
    rw [hnone] at ha
    cases ha
  · obtain ⟨hfree, hallocated, hother⟩ := hH.pcbAlloc_free _ _ _ ht
    obtain ⟨hnew, hold, hrest⟩ := hc.alive hallocated hfree hother
    have hplaced : ∀ q, Alive (createProcess H s name type priority flags).1 q →
        Assigned (createProcess H s name type priority flags).1 q := fun q hq => by
      by_cases hqp : q = p
      · exact hqp ▸ hc.assigned
      · obtain ⟨hpcb, halive⟩ := hrest q hqp
        unfold Assigned
        rw [hpcb]
        exact hs.assigned q (halive.mp hq)
    have hok : StackOk H s (.create name type priority flags) ↔ ∀ q, Alive s q →
        (s.pcb q).pid.toNat % 2 ^ 20 ≠ t.nextPid.toNat % 2 ^ 20 := by
      unfold StackOk
      rw [ht]
      exact ⟨fun h => h (p, t) rfl, fun h a ha => by cases ha; exact h⟩
    rw [hok]
    refine ⟨fun hnext => ⟨hplaced, fun q r hqr hq hr => ?_⟩, fun hno hapart => ?_⟩
    · by_cases hqp : q = p
      · subst hqp
        obtain ⟨hpcb, halive⟩ := hrest r (Ne.symm hqr)
        rw [hc.pid, hpcb]
        exact Ne.symm (hnext r (halive.mp hr))
      · obtain ⟨hpcb, halive⟩ := hrest q hqp
        rw [hpcb]
        by_cases hrp : r = p
        · rw [hrp, hc.pid]
          exact hnext q (halive.mp hq)
        · obtain ⟨hpcbr, haliver⟩ := hrest r hrp
          rw [hpcbr]
          exact hs.pids q r hqr (halive.mp hq) (haliver.mp hr)
    · apply hno
      intro q hq
      have hqp : q ≠ p := fun he => hold (he ▸ hq)
      obtain ⟨hpcb, halive⟩ := hrest q hqp
      have hqalive := halive.mpr hq
      have h := (stack_apart_iff (hplaced q hqalive) (hplaced p hnew)).mp
        (hapart.1 q p hqp hqalive hnew)
      rwa [hpcb, hc.pid] at h

/-- **What a step that meets the condition preserves.** -/
theorem step_pagesApart (hH : H.Complete) (hpid : H.InitsPid) (hs : PagesApart s)
    (hok : StackOk H s op) (h : Step H s op s') : PagesApart s' := by
  cases op with
  | create name type priority flags =>
    cases h
    exact (createProcess_pagesApart hH hpid hs name type priority flags).1 hok
  | terminate pid exitCode =>
    cases h
    exact (terminateProcess_fewer hH s pid exitCode).pagesApart hs
  | reap pid =>
    cases h
    exact (reapProcess_fewer hH s pid).pagesApart hs
  | schedule => cases hok
  | tick => cases hok
  | yield => cases hok
  | block => cases hok
  | wakeup pid => cases hok
  | sleep ticks => cases hok
  | setPriority pid priority => cases hok

/-! ## Runs -/

variable {statics : Statics} {config : Option Config}

theorem initialState_pagesApart (hH : H.Documented) (statics : Statics) (config : Config) :
    PagesApart (initialState H statics config) := by
  have hdead : ∀ p, ¬ Alive (initialState H statics config) p := fun p hp => by
    cases (hH.processTableInit_free _ p).symm.trans hp.1
  exact ⟨fun p hp => absurd hp (hdead p), fun p _ _ hp => absurd hp (hdead p)⟩

/-- `scheduler_init` creates one process, the idle process. -/
theorem schedulerInit_pagesApart (hH : H.Complete) (hpid : H.InitsPid) (statics : Statics)
    (config : Option Config) : PagesApart (schedulerInit H statics config) := by
  have h0 := initialState_pagesApart hH.toDocumented statics (config.getD defaultConfig)
  have hnone : ∀ p, ¬ Alive (initialState H statics (config.getD defaultConfig)) p := fun p hp => by
    cases (hH.processTableInit_free _ p).symm.trans hp.1
  have h1 := (createProcess_pagesApart hH hpid h0 [105, 100, 108, 101] .system 3
    PROCESS_FLAG_CPU_BOUND).1 fun _ _ q hq => absurd hq (hnone q)
  unfold schedulerInit
  dsimp only
  split
  · exact h1
  · rename_i p hp
    -- the state `PROCESS_RUNNING` is written to the process that was created
    generalize hr : createProcess H (initialState H statics (config.getD defaultConfig))
      [105, 100, 108, 101] .system 3 PROCESS_FLAG_CPU_BOUND = r at hp h1
    have halive : Alive r.1 p := by
      rcases createProcess_creates hH hpid (initialState H statics (config.getD defaultConfig))
        [105, 100, 108, 101] .system 3 PROCESS_FLAG_CPU_BOUND with ⟨-, he⟩ | ⟨p', t, ht, hsome, hc⟩
      · rw [← hr, he] at hp
        cases hp
      · rw [hr] at hsome hc
        obtain rfl := Option.some.inj (hsome.symm.trans hp)
        obtain ⟨hfree, hallocated, hother⟩ := hH.pcbAlloc_free _ _ _ ht
        exact (hc.alive hallocated hfree hother).1
    have hfewer : Fewer r.1 (r.1.setPcb p fun q => { q with state := .running }) := by
      intro q hq
      by_cases hqp : q = p
      · subst hqp
        rw [setPcb_self]
        exact ⟨halive, rfl, rfl, rfl⟩
      · rw [setPcb_of_ne _ _ hqp]
        unfold Alive at hq
        rw [setPcb_of_ne _ _ hqp] at hq
        exact ⟨hq, rfl, rfl, rfl⟩
    have hpages := hfewer.pagesApart h1
    exact ⟨hpages.assigned, hpages.pids⟩

/-- **The stacks of live processes never overlap and never wrap** in a run that meets the condition,
and the first creation that breaks the condition makes two of them overlap. -/
theorem stacks_apart (hH : H.Complete) (hpid : H.InitsPid)
    (hrun : Reaches (Step H) (StackOk H) (schedulerInit H statics config) s) :
    StacksApart s ∧ ∀ op s', Lifecycle op → Step H s op s' → ¬ StackOk H s op →
      ¬ StacksApart s' := by
  have hs : PagesApart s := hrun.invariant (schedulerInit_pagesApart hH hpid statics config)
    fun _ _ _ hi hok hstep => step_pagesApart hH hpid hi hok hstep
  refine ⟨hs.stacksApart, fun op s' hop hstep hno => ?_⟩
  cases op with
  | create name type priority flags =>
    cases hstep
    exact (createProcess_pagesApart hH hpid hs name type priority flags).2 hno
  | terminate pid exitCode => exact absurd trivial hno
  | reap pid => exact absurd trivial hno
  | _ => cases hop

theorem listHelpers_initsPid : listHelpers.InitsPid := fun _ _ _ _ _ => rfl

/-- A process comes and goes, another one comes: its stack is apart from that of the idle process. -/
theorem stacks_apart_run : ∃ s, Reaches (Step listHelpers) (StackOk listHelpers)
    (schedulerInit listHelpers ⟨0, 0, 0, 0⟩ none) s ∧ (s.pcb 1).pid = 3 ∧
    Alive s 0 ∧ Alive s 1 ∧ StacksApart s := by
  have hx : (exec (step listHelpers) (fun s op => decide (StackOk listHelpers s op))
      (schedulerInit listHelpers ⟨0, 0, 0, 0⟩ none)
      [.create [] .user 0 0, .terminate 2 0, .reap 2, .create [] .user 0 0]).map (fun s =>
        ((s.pcb 1).pid, decide (Alive s 0), decide (Alive s 1))) = some (3, true, true) := by
    decide +kernel
  obtain ⟨s, hs, hobs⟩ := Option.map_eq_some_iff.mp hx
  simp only [Prod.mk.injEq, decide_eq_true_eq] at hobs
  obtain ⟨hpid, halive, halive'⟩ := hobs
  have hrun := run_of_exec hs
  exact ⟨s, hrun, hpid, halive, halive',
    (stacks_apart listHelpers_complete listHelpers_initsPid hrun).1⟩

/-! ## A run that overlaps -/

/-- No two live processes share a pid. -/
def DistinctPids (s : State) : Prop :=
  ∀ p q, p ≠ q → Alive s p → Alive s q → (s.pcb p).pid ≠ (s.pcb q).pid

/-- Slot 0 belongs to the idle process, slot 1 is `used` or not, and the others are free. -/
structure TwoSlots (s : State) (used : Bool) (next : UInt32) : Prop where
  allocated : s.table.allocated = update (update (fun _ => false) 0 true) 1 used
  nextPid : s.table.nextPid = next
  idle : Alive s 0
  idlePid : (s.pcb 0).pid = 1
  assigned : Assigned s 0

variable {used : Bool} {n : UInt32}

theorem TwoSlots.cases (h : TwoSlots s used n) (hp : Alive s p) : p = 0 ∨ used = true ∧ p = 1 := by
  have hbit := hp.1
  rw [h.allocated] at hbit
  by_cases hp1 : p = 1
  · subst hp1
    rw [update_self] at hbit
    exact .inr ⟨hbit, rfl⟩
  · rw [update_of_ne hp1] at hbit
    by_cases hp0 : p = 0
    · exact .inl hp0
    · rw [update_of_ne hp0] at hbit
      cases hbit

theorem TwoSlots.distinctPids (h : TwoSlots s used n) (h1 : used = true → (s.pcb 1).pid ≠ 1) :
    DistinctPids s := by
  intro p q hpq hp hq
  rcases h.cases hp with rfl | ⟨hu, rfl⟩ <;> rcases h.cases hq with rfl | ⟨hu', rfl⟩
  · exact absurd rfl hpq
  · rw [h.idlePid]
    exact Ne.symm (h1 hu')
  · rw [h.idlePid]
    exact h1 hu
  · exact absurd rfl hpq

theorem TwoSlots.pagesApart (h : TwoSlots s false n) : PagesApart s := by
  have h0 : ∀ p, Alive s p → p = 0 := fun p hp =>
    (h.cases hp).elim id fun hu => nomatch hu.1
  refine ⟨fun p hp => (h0 p hp) ▸ h.assigned, fun p q hpq hp hq => ?_⟩
  exact absurd ((h0 p hp).trans (h0 q hq).symm) hpq

/-- The free slot that is found is slot 1. -/
theorem TwoSlots.alloc (h : TwoSlots s false n) : listHelpers.pcbAlloc s.table =
    some (1, { s.table with allocated := update s.table.allocated 1 true }) := by
  have hfind : (List.finRange MAX_PROCESSES).find? (fun p =>
      (update (update (fun _ : Slot => false) 0 true) 1 false) p = false) = some 1 := by
    decide +kernel
  show Option.map _ ((List.finRange MAX_PROCESSES).find? fun p => s.table.allocated p = false) = _
  rw [h.allocated, hfind]
  rfl

/-- A call that leaves the idle process alone. -/
theorem TwoSlots.frame {used' : Bool} {n' : UInt32} (h : TwoSlots s used n)
    (hbits : s'.table.allocated = update (update (fun _ => false) 0 true) 1 used')
    (hnext : s'.table.nextPid = n') (h0 : s'.pcb 0 = s.pcb 0) : TwoSlots s' used' n' := by
  refine ⟨hbits, hnext, ⟨?_, ?_⟩, ?_, ?_⟩
  · rw [hbits, update_of_ne (by decide), update_self]
  · rw [h0]
    exact h.idle.2
  · rw [h0]
    exact h.idlePid
  · unfold Assigned
    rw [h0]
    exact h.assigned

/-- A creation takes slot 1. -/
theorem TwoSlots.create (h : TwoSlots s false n) :
    ∃ s', Step listHelpers s (.create [] .user 0 0) s' ∧
      TwoSlots s' true (n + 1) ∧ (s'.pcb 1).pid = n ∧ (s'.pcb 1).state = .ready := by
  have halloc := h.alloc
  rcases createProcess_creates listHelpers_complete listHelpers_initsPid s [] .user 0 0 with
    ⟨hnone, -⟩ | ⟨p, t, ht, -, hc⟩
  · cases hnone.symm.trans halloc
  · cases ht.symm.trans halloc
    have h0 : (createProcess listHelpers s [] .user 0 0).1.pcb 0 = s.pcb 0 :=
      hc.other 0 (by decide)
    refine ⟨_, rfl, h.frame ?_ ?_ h0, hc.pid.trans h.nextPid, hc.state⟩
    · rw [hc.allocated]
      show update s.table.allocated 1 true = _
      rw [h.allocated, update_idem]
    · rw [hc.nextPid]
      exact congrArg (· + 1) h.nextPid

/-- The process in slot 1 is found by its pid. -/
theorem TwoSlots.find (h : TwoSlots s true n) {pid : UInt32} (h1 : (s.pcb 1).pid = pid)
    (hpid : pid ≠ 1) : listHelpers.processTableFind s.table pid = some 1 := by
  have hfront : List.finRange MAX_PROCESSES = 0 :: 1 :: (List.finRange MAX_PROCESSES).drop 2 := by
    decide +kernel
  have h0 : (s.table.processes 0).pid = 1 := h.idlePid
  have h1 : (s.table.processes 1).pid = pid := h1
  show (List.finRange MAX_PROCESSES).find? (fun p => s.table.allocated p = true ∧
    (s.table.processes p).pid = pid) = some 1
  rw [hfront, List.find?_cons_of_neg, List.find?_cons_of_pos]
  · rw [h.allocated, h1]
    simp
  · rw [h0]
    simp [Ne.symm hpid]

/-- The process in slot 1 is terminated. -/
theorem TwoSlots.terminate (h : TwoSlots s true n) {pid : UInt32} (h1 : (s.pcb 1).pid = pid)
    (hpid : pid ≠ 1) (hready : (s.pcb 1).state = .ready) :
    ∃ s', Step listHelpers s (.terminate pid 0) s' ∧ TwoSlots s' true n ∧ (s'.pcb 1).pid = pid ∧
      (s'.pcb 1).state = .zombie := by
  have hk := terminateProcess_kills listHelpers_complete (h.find h1 hpid) (by simp [hready]) 0
  have hslots := h.frame (hk.allocated.trans h.allocated) (hk.nextPid.trans h.nextPid)
    (hk.other 0 (by decide))
  exact ⟨_, rfl, hslots, hk.pid.trans h1, hk.state⟩

/-- The process in slot 1 is reaped. -/
theorem TwoSlots.reap (h : TwoSlots s true n) {pid : UInt32} (h1 : (s.pcb 1).pid = pid)
    (hpid : pid ≠ 1) (hzombie : (s.pcb 1).state = .zombie) :
    ∃ s', Step listHelpers s (.reap pid) s' ∧ TwoSlots s' false n := by
  obtain ⟨⟨t, ht, hnext, hbits⟩, hother⟩ :=
    reapProcess_frees listHelpers_complete (h.find h1 hpid) hzombie
  have h0 := hother 0 (by decide)
  have hbits' : (reapProcess listHelpers s pid).1.table.allocated =
      update (update (fun _ => false) 0 true) 1 false := by
    rw [ht]
    show update t.allocated 1 false = _
    rw [hbits, h.allocated, update_idem]
  refine ⟨_, rfl, h.frame hbits' ?_ h0⟩
  rw [ht]
  exact hnext.trans h.nextPid

/-- A creation or an end of a process, where no two live processes share a pid. -/
def Distinct (s : State) (op : Op) : Prop := Lifecycle op ∧ DistinctPids s

/-- One process after the other is created, terminated and reaped. -/
theorem TwoSlots.rounds {k : Nat} (h : TwoSlots s false 2) (hk : k + 2 < 2 ^ 32) :
    ∃ s', Reaches (Step listHelpers) Distinct s s' ∧ TwoSlots s' false (UInt32.ofNat (k + 2)) := by
  induction k with
  | zero => exact ⟨s, .refl, h⟩
  | succ k ih =>
    obtain ⟨t, hrun, ht⟩ := ih (by omega)
    have hnat : (UInt32.ofNat (k + 2)).toNat = k + 2 :=
      UInt32.toNat_ofNat_of_lt' (show k + 2 < 2 ^ 32 by omega)
    have hpid : UInt32.ofNat (k + 2) ≠ 1 := fun he => by
      rw [he] at hnat
      cases hnat
    obtain ⟨t₁, hs₁, ht₁, hp₁, hready⟩ := ht.create
    obtain ⟨t₂, hs₂, ht₂, hp₂, hzombie⟩ := ht₁.terminate hp₁ hpid hready
    obtain ⟨t₃, hs₃, ht₃⟩ := ht₂.reap hp₂ hpid hzombie
    have hd : Distinct t (.create [] .user 0 0) := ⟨trivial, ht.distinctPids nofun⟩
    have hd₁ : Distinct t₁ (.terminate (UInt32.ofNat (k + 2)) 0) :=
      ⟨trivial, ht₁.distinctPids fun _ => hp₁ ▸ hpid⟩
    have hd₂ : Distinct t₂ (.reap (UInt32.ofNat (k + 2))) :=
      ⟨trivial, ht₂.distinctPids fun _ => hp₂ ▸ hpid⟩
    refine ⟨t₃, ((hrun.step hd hs₁).step hd₁ hs₂).step hd₂ hs₃, ?_⟩
    have hnext : UInt32.ofNat (k + 2) + 1 = UInt32.ofNat (k + 1 + 2) := by
      apply UInt32.toNat_inj.mp
      rw [UInt32.toNat_add, hnat, UInt32.toNat_ofNat_of_lt' (show k + 1 + 2 < 2 ^ 32 by omega)]
      show (k + 2 + 1) % 2 ^ 32 = k + 1 + 2
      omega
    exact hnext ▸ ht₃

/-- The idle process, once `scheduler_init` is done. -/
theorem init_twoSlots : TwoSlots (schedulerInit listHelpers ⟨0, 0, 0, 0⟩ none) false 2 := by
  refine ⟨?_, by decide +kernel, ⟨by decide +kernel, by decide +kernel, by decide +kernel⟩,
    by decide +kernel, ⟨by decide +kernel, by decide +kernel⟩⟩
  have hall : ∀ p, (schedulerInit listHelpers ⟨0, 0, 0, 0⟩ none).table.allocated p =
      update (update (fun _ => false) 0 true) 1 false p := by decide +kernel
  exact funext hall

/-- The process created after `2 ^ 20 - 1` others have come and gone gets the stack of the idle
process. -/
theorem stacks_overlap : ¬ ∀ (H : Helpers) statics config s, H.Complete → H.InitsPid →
    Reaches (Step H) Distinct (schedulerInit H statics config) s → DistinctPids s →
    StacksApart s := by
  intro hall
  obtain ⟨s, hrun, hs⟩ := init_twoSlots.rounds (k := 2 ^ 20 - 1) (by decide)
  obtain ⟨s', hstep, hs', hp, -⟩ := hs.create
  have hd : DistinctPids s' := hs'.distinctPids fun _ => by
    rw [hp]
    decide
  have hfirst : Distinct s (.create [] .user 0 0) := ⟨trivial, hs.distinctPids nofun⟩
  have hapart := hall listHelpers _ _ s' listHelpers_complete listHelpers_initsPid
    (hrun.step hfirst hstep) hd
  -- the next pid is `2 ^ 20 + 1`, that of the idle process is 1
  have hno : ¬ StackOk listHelpers s (.create [] .user 0 0) := by
    intro hok
    apply hok _ hs.alloc 0 hs.idle
    show _ = s.table.nextPid.toNat % 2 ^ 20
    rw [hs.idlePid, hs.nextPid]
    rfl
  cases hstep
  exact (createProcess_pagesApart listHelpers_complete listHelpers_initsPid hs.pagesApart
    [] .user 0 0).2 hno hapart

end OSCompas.Kernel
