import OSCompas.Scheduler.Batch
import Mathlib.Data.List.Destutter

/-!
# First in, first out

A batch of processes under `SCHED_FIFO`, where the running process is terminated again and again.

* `Call`, `visited` — the calls after the start and the states they lead through;
* `FifoOrder` — the processes run in the order they were created in, each once, and nothing after;
* `Solo` — the one process there is runs.

Principal results: `Solo.visited` (a single process runs until it is terminated),
`not_fifoOrder` (of several only the first one runs) and `fifoOrder_iff`.
-/

set_option autoImplicit false

namespace OSCompas.Scheduler

open Function

variable {config : Config} {jobs : List Job} {s s' : State} {c p x : Slot} {ts : List Nat}

/-- A tick, or the termination of the running process. -/
inductive Call where
  | tick
  | retire
  deriving DecidableEq, Repr

def call (s : State) : Call → Option State
  | .tick => tick s
  | .retire =>
    match s.current with
    | none => some s
    | some c => terminateProcess s (s.pcb c).pid

/-- The states on the way, the first and the last one included. -/
def visited : State → List Call → Option (List State)
  | s, [] => some [s]
  | s, a :: as => do
    let s' ← call s a
    return s :: (← visited s' as)

/-- Some ticks before every termination. -/
def rounds (ts : List Nat) : List Call := ts.flatMap fun t => List.replicate t .tick ++ [.retire]

/-- The processes become current one after the other in the order of creation, and then none is. -/
def FifoOrder (config : Config) (jobs : List Job) (ts : List Nat) : Prop :=
  ∃ s ps vs, start config jobs = some (s, ps) ∧ visited s (rounds ts) = some vs ∧
    (vs.map State.current).destutter (· ≠ ·) = ps ++ [none]

/-! ## Nothing runs -/

theorem call_idle (hc : s.current = none) (a : Call) :
    ∃ s', call s a = some s' ∧ s'.current = none := by
  cases a with
  | tick => exact ⟨_, tick_idle hc, hc⟩
  | retire =>
    refine ⟨s, ?_, hc⟩
    unfold call
    rw [hc]

theorem visited_idle (hc : s.current = none) (as : List Call) :
    ∃ vs, visited s as = some vs ∧ ∀ v ∈ vs, v.current = none := by
  induction as generalizing s with
  | nil =>
    refine ⟨[s], rfl, fun v hv => ?_⟩
    rw [List.mem_singleton.mp hv]
    exact hc
  | cons a as ih =>
    obtain ⟨s₁, h1, hc₁⟩ := call_idle hc a
    obtain ⟨vs, h2, hvs⟩ := ih hc₁
    refine ⟨s :: vs, ?_, fun v hv => ?_⟩
    · unfold visited
      simp only [h1, h2, Option.bind_eq_bind, Option.bind_some]
      rfl
    · rcases List.mem_cons.mp hv with rfl | hv
      · exact hc
      · exact hvs v hv

/-- The dispatch finds nothing in a ready queue without ends, whatever its count is. -/
theorem schedule_lost (ht : s.config.type ≠ .mlfq) (hc : s.current = none)
    (hh : (s.links.queue .ready).head = none) (hl : (s.links.queue .ready).tail = none) :
    ∃ s', schedule s = some s' ∧ s'.current = none := by
  by_cases h0 : (s.links.queue .ready).count = 0
  · exact ⟨s, schedule_empty ht h0, hc⟩
  · have hd : ∃ l, s.links.dequeue .ready = some (l, none) := by
      unfold Links.dequeue
      dsimp only
      rw [if_pos (hh.trans hl.symm), hh]
      exact ⟨_, rfl⟩
    obtain ⟨l, hd⟩ := hd
    refine ⟨{ s with links := l }, ?_, hc⟩
    unfold schedule
    rw [selectNext_first ht hc hd h0]
    rfl

/-! ## The running process is terminated -/

/-- The first process of the table runs and is in no queue. -/
structure Alone (s : State) : Prop where
  type : s.config.type ≠ .mlfq
  current : s.current = some (slot 0)
  pid : (s.pcb (slot 0)).pid = 1
  live : (s.pcb (slot 0)).state ≠ .terminated
  next : s.links.next (slot 0) = none
  prev : s.links.prev (slot 0) = none

theorem findProcess_first (hp : (s.pcb (slot 0)).pid = 1)
    (hl : (s.pcb (slot 0)).state ≠ .terminated) : findProcess s 1 = some (slot 0) := by
  unfold findProcess
  rw [← Fin.find?_eq_find?_finRange, Fin.find?_eq_some_iff]
  constructor
  · simp [hp, hl]
  · intro j hj
    exact absurd hj (Nat.not_lt_zero _)

/-- **A process that is in no queue takes the whole queue along**: nothing runs any more. -/
theorem Alone.retire (h : Alone s) : ∃ s', call s .retire = some s' ∧ s'.current = none := by
  have hst := (retire_effect s (slot 0)).1
  have hu : ¬ s.unmanaged (slot 0) := fun hu => h.type hu.1
  have hlinks := retire_links s (slot 0)
  rw [if_neg hu, homeQueue_single h.type] at hlinks
  have ht : (Scheduler.retire s (slot 0)).config.type ≠ .mlfq := by
    rw [hst.config, (setState_procs s (slot 0) _).config]
    exact h.type
  have hcur : (Scheduler.retire s (slot 0)).current = some (slot 0) := hst.current.trans h.current
  have hpid : ((Scheduler.retire s (slot 0)).pcb (slot 0)).pid = 1 := by
    rw [hst.pid, (setState_procs s (slot 0) _).pid]
    exact h.pid
  have hqueue : ((Scheduler.retire s (slot 0)).links.queue .ready).head = none ∧
      ((Scheduler.retire s (slot 0)).links.queue .ready).tail = none := by
    rw [hlinks, unlink_queue, update_self]
    simp [h.next, h.prev]
  obtain ⟨s', hs', hc'⟩ := schedule_lost (s := { Scheduler.retire s (slot 0) with current := none })
    ht rfl hqueue.1 hqueue.2
  refine ⟨s', ?_, hc'⟩
  unfold call terminateProcess
  simp only [h.current, h.pid, findProcess_first h.pid h.live, hcur, hpid, if_true]
  exact hs'

/-! ## One process -/

/-- The one process there is runs under `SCHED_FIFO`, and the ready queue is empty. -/
structure Solo (s : State) : Prop extends Alone s where
  fifo : s.config.type = .fifo
  queue : s.links.queue .ready = ⟨none, none, 0⟩

/-- The clocks are not what this is about. -/
theorem Solo.congr (h : Solo s) (ht : SameStates s s') (hl : s'.links = s.links) : Solo s' where
  type := by
    rw [ht.config]
    exact h.type
  current := ht.current.trans h.current
  pid := (ht.pid _).trans h.pid
  live := by
    rw [ht.state]
    exact h.live
  next := by
    rw [hl]
    exact h.next
  prev := by
    rw [hl]
    exact h.prev
  fifo := by
    rw [ht.config]
    exact h.fifo
  queue := by
    rw [hl]
    exact h.queue

/-- It yields to itself. -/
theorem Solo.yield (h : Solo s) : ∃ s', yield s = some s' ∧ Solo s' := by
  have hset := setState_procs s (slot 0) .ready
  have hline : Lined s.links .ready [] := by
    refine ⟨?_, ?_, .nil, List.nodup_nil⟩
    · rw [h.queue]
      rfl
    · rw [h.queue]
      rfl
  obtain ⟨l, hl⟩ := hline.enqueue_some (slot 0)
  have hline₁ := hline.enqueue (by simp) hl
  obtain ⟨l', hd, hl', hc, hn, -, hp, -⟩ := hline₁.dequeue
  have hq := congrFun (enqueue_eq hl).1 .ready
  rw [update_self, h.queue] at hq
  have hnext : l'.next (slot 0) = none := by
    rw [hn]
    apply enqueue_self hl
    rw [h.queue]
    simp
  have hprev : l'.prev (slot 0) = none := by
    rw [hp _ (by simp)]
    apply enqueue_first hl
    rw [h.queue]
  have hqueue : l'.queue .ready = ⟨none, none, 0⟩ := by
    have hcount : (l'.queue .ready).count = 0 := by
      rw [hc, hq]
      rfl
    calc l'.queue .ready
        = ⟨(l'.queue .ready).head, (l'.queue .ready).tail, (l'.queue .ready).count⟩ := rfl
      _ = ⟨none, none, 0⟩ := by rw [hl'.head, hl'.tail, hcount]; rfl
  let s₁ : State := { s.setState (slot 0) .ready with links := l }
  have hadd : addToReadyQueue (s.setState (slot 0) .ready) (slot 0) = some s₁ := by
    unfold addToReadyQueue
    rw [homeQueue_single (by exact h.type)]
    exact congrArg (Option.map _) hl
  have hsel : selectNext s₁ = some ({ s₁ with links := l' }, some (slot 0)) := by
    unfold selectNext
    rw [show s₁.config.type = .fifo from h.fifo]
    apply fifoSchedule_some hd
    show (l.queue .ready).count ≠ 0
    rw [hq]
    decide
  refine ⟨{ s₁ with links := l' }, ?_, ?_⟩
  · unfold Scheduler.yield
    simp only [h.current, hadd, Option.bind_eq_bind, Option.bind_some]
    unfold schedule
    simp only [hsel, Option.bind_eq_bind, Option.bind_some]
    exact if_pos h.current
  · exact {
      type := h.type
      current := h.current
      pid := (hset.pid _).trans h.pid
      live := by
        show ((s.setState (slot 0) .ready).pcb (slot 0)).state ≠ _
        rw [setState_state, if_pos rfl]
        simp
      next := hnext
      prev := hprev
      fifo := h.fifo
      queue := hqueue }

theorem Solo.tick (h : Solo s) : ∃ s', tick s = some s' ∧ Solo s' := by
  have hs : Solo (s.charged (slot 0)) := h.congr (charged_states s (slot 0)) rfl
  rw [tick_single h.type h.current]
  split
  · exact hs.yield
  · exact ⟨_, rfl, hs⟩

/-- **A single process runs until it is terminated.** -/
theorem Solo.visited (h : Solo s) (t : Nat) : ∃ vs,
    visited s (List.replicate t .tick ++ [.retire]) = some vs ∧
      vs.map State.current = List.replicate (t + 1) (some (slot 0)) ++ [none] := by
  induction t generalizing s with
  | zero =>
    obtain ⟨s', h1, hc⟩ := h.retire
    refine ⟨[s, s'], ?_, ?_⟩
    · simp [Scheduler.visited, h1]
    · simp [h.current, hc]
  | succ t ih =>
    obtain ⟨s₁, h1, hs₁⟩ := h.tick
    obtain ⟨vs, h2, hvs⟩ := ih hs₁
    have h1 : call s .tick = some s₁ := h1
    refine ⟨s :: vs, ?_, ?_⟩
    · rw [List.replicate_succ, List.cons_append, Scheduler.visited]
      simp only [h1, h2, Option.bind_eq_bind, Option.bind_some]
      rfl
    · rw [List.map_cons, hvs, h.current]
      rfl

theorem destutter_run {α : Type} [DecidableEq α] {a b : α} (hab : a ≠ b) (t : Nat) :
    (List.replicate (t + 1) a ++ [b]).destutter (· ≠ ·) = [a, b] := by
  rw [List.replicate_succ, List.cons_append, List.destutter_cons']
  induction t with
  | zero => simp [hab]
  | succ t ih =>
    rw [List.replicate_succ, List.cons_append, List.destutter'_cons_neg _ (by simp)]
    exact ih

/-! ## Several processes -/

/-- Two or more are there, and the first one runs for `t` more ticks at least. -/
structure Holds (s : State) (t : Nat) : Prop extends Alone s where
  slice : s.config.enablePreemption = 0 ∨ t = 0 ∨
    (s.pcb (slot 0)).timeSliceUsed.toNat + t < (s.pcb (slot 0)).timeSlice.toNat

theorem succ_toNat {n : UInt32} {m : Nat} (h : n.toNat < m) (hm : m < 2 ^ 32) :
    (n + 1).toNat = n.toNat + 1 := by
  rw [UInt32.toNat_add]
  exact Nat.mod_eq_of_lt (by show _ + 1 < _; omega)

/-- A tick before the end of the slice changes nothing but clocks. -/
theorem Holds.tick {t : Nat} (h : Holds s (t + 1)) : ∃ s', tick s = some s' ∧ Holds s' t := by
  have hch := charged_states s (slot 0)
  have hslice : ((s.charged (slot 0)).pcb (slot 0)).timeSlice = (s.pcb (slot 0)).timeSlice := by
    unfold State.charged charge
    simp
  have hused : ((s.charged (slot 0)).pcb (slot 0)).timeSliceUsed =
      (s.pcb (slot 0)).timeSliceUsed + 1 := by
    unfold State.charged charge
    simp
  have hlt := (s.pcb (slot 0)).timeSlice.toNat_lt
  have hsucc : (s.pcb (slot 0)).timeSliceUsed.toNat + (t + 1) < (s.pcb (slot 0)).timeSlice.toNat →
      ((s.pcb (slot 0)).timeSliceUsed + 1).toNat = (s.pcb (slot 0)).timeSliceUsed.toNat + 1 :=
    fun hl => succ_toNat (by omega) hlt
  have hno : ¬ s.expires (slot 0) := by
    rintro ⟨hpre, hle⟩
    rcases h.slice with h0 | h0 | hl
    · exact hpre h0
    · omega
    · rw [UInt32.le_iff_toNat_le, hsucc hl] at hle
      omega
  refine ⟨s.charged (slot 0), ?_, ?_⟩
  · rw [tick_single h.type h.current, if_neg hno]
  · constructor
    · exact {
        type := h.type
        current := h.current
        pid := (hch.pid _).trans h.pid
        live := by
          rw [hch.state]
          exact h.live
        next := h.next
        prev := h.prev }
    · rcases h.slice with h0 | h0 | hl
      · exact .inl h0
      · omega
      · right
        right
        rw [hused, hslice, hsucc hl]
        omega

/-- **Only the first process and then none is ever current.** -/
theorem Holds.visited {t : Nat} (h : Holds s t) (as : List Call) {vs : List State}
    (hv : visited s (List.replicate t .tick ++ [.retire] ++ as) = some vs) :
    ∀ v ∈ vs, v.current = some (slot 0) ∨ v.current = none := by
  induction t generalizing s vs with
  | zero =>
    obtain ⟨s', h1, hc⟩ := h.retire
    obtain ⟨ws, h2, hws⟩ := visited_idle hc as
    have hv : Scheduler.visited s (.retire :: as) = some vs := hv
    unfold Scheduler.visited at hv
    simp only [h1, h2, Option.bind_eq_bind, Option.bind_some] at hv
    cases hv
    intro v hv
    rcases List.mem_cons.mp hv with rfl | hv
    · exact .inl h.current
    · exact .inr (hws v hv)
  | succ t ih =>
    obtain ⟨s₁, h1, hs₁⟩ := h.tick
    have h1 : call s .tick = some s₁ := h1
    rw [List.replicate_succ, List.cons_append, List.cons_append] at hv
    unfold Scheduler.visited at hv
    simp only [h1, Option.bind_eq_bind, Option.bind_some] at hv
    obtain ⟨ws, h2, hv⟩ := Option.bind_eq_some_iff.mp hv
    cases hv
    intro v hv
    rcases List.mem_cons.mp hv with rfl | hv
    · exact .inl h.current
    · exact ih hs₁ h2 v hv

/-! ## The order -/

theorem Started.alone (h : Started config jobs s) (ht : config.type ≠ .mlfq)
    (hpos : 0 < jobs.length) : Alone s where
  type := by
    rw [h.config]
    exact ht
  current := h.current
  pid := by
    have hj := (h.job (slot 0) jobs[0] (List.getElem?_eq_getElem hpos)).pid
    exact hj
  live := h.live _
  next := h.next
  prev := h.prev

/-- With one process, or none, the order is kept, whatever ticks come in between. -/
theorem fifoOrder_single (ht : config.type = .fifo) (hn : jobs.length ≤ 1)
    (hts : ts.length = jobs.length) : FifoOrder config jobs ts := by
  have ht' : config.type ≠ .mlfq := by simp [ht]
  cases jobs with
  | nil =>
    obtain rfl := List.length_eq_zero_iff.mp hts
    have hs : schedule (schedulerInit config) = some (schedulerInit config) :=
      schedule_empty ht' rfl
    refine ⟨schedulerInit config, [], [schedulerInit config], ?_, rfl, rfl⟩
    unfold start createAll
    simp only [hs, Option.bind_eq_bind, Option.bind_some]
    rfl
  | cons j js =>
    obtain rfl : js = [] := by
      rw [List.length_cons] at hn
      exact List.length_eq_zero_iff.mp (by omega)
    obtain ⟨t, rfl⟩ := List.length_eq_one_iff.mp hts
    obtain ⟨s, hst, hs⟩ := start_started config [j] ht' (by simp) (by simp)
    have hsolo : Solo s := by
      have hal := hs.alone ht' (by simp)
      have hcount : (s.links.queue .ready).count = 0 := hs.count
      refine ⟨hal, by rw [hs.config]; exact ht, ?_⟩
      calc s.links.queue .ready
          = ⟨(s.links.queue .ready).head, (s.links.queue .ready).tail,
              (s.links.queue .ready).count⟩ := rfl
        _ = ⟨none, none, 0⟩ := by rw [hs.line.head, hs.line.tail, hcount]; rfl
    obtain ⟨vs, hv, hcur⟩ := hsolo.visited t
    refine ⟨s, _, vs, hst, ?_, ?_⟩
    · simpa [rounds] using hv
    · rw [hcur, destutter_run (by simp)]
      rfl

/-- Of several processes only the first one runs, unless a tick ends its slice. -/
theorem not_fifoOrder {j : Job} {t : Nat} (ht : config.type ≠ .mlfq) (hn : jobs.length ≤ 64)
    (h2 : 2 ≤ jobs.length) (hj : jobs[0]? = some j)
    (hsl : config.enablePreemption = 0 ∨ t = 0 ∨ t < (slice j.2).toNat) :
    ¬ FifoOrder config jobs (t :: ts) := by
  rintro ⟨s, ps, vs, hst, hv, horder⟩
  obtain ⟨s₁, hst₁, hs⟩ := start_started config jobs ht (by omega) hn
  obtain ⟨rfl, rfl⟩ := Prod.mk.inj (Option.some.inj (hst.symm.trans hst₁))
  have hfresh := hs.job (slot 0) j hj
  have hholds : Holds s t := by
    refine ⟨hs.alone ht (by omega), ?_⟩
    rw [hs.config, hfresh.timeSliceUsed, hfresh.timeSlice]
    simpa using hsl
  have hcur := hholds.visited (rounds ts) (by simpa [rounds] using hv)
  -- the second process is among those expected to run
  have hmem : some (slot 1) ∈ (slots 0 jobs.length).map some ++ [none] := by
    apply List.mem_append_left
    apply List.mem_map_of_mem
    rw [mem_slots (by omega), slot_val (by omega)]
    omega
  rw [← horder] at hmem
  obtain ⟨v, hv, he⟩ := List.mem_map.mp ((List.destutter_sublist _ _).mem hmem)
  rcases hcur v hv with hc | hc
  · have h01 := Option.some.inj (hc.symm.trans he)
    exact absurd ((slot_inj (by omega) (by omega)).mp h01) (by omega)
  · exact nomatch hc.symm.trans he

/-- **The processes run in the order of creation, with any ticks in between, exactly if there is at
most one.**  Without preemption this holds for every choice of ticks. -/
theorem fifoOrder_iff (config : Config) (jobs : List Job) (ht : config.type = .fifo)
    (hn : jobs.length ≤ 64) :
    ((∀ ts, ts.length = jobs.length → FifoOrder config jobs ts) ↔ jobs.length ≤ 1) ∧
      (config.enablePreemption = 0 → ∀ ts, ts.length = jobs.length →
        (FifoOrder config jobs ts ↔ jobs.length ≤ 1)) := by
  have ht' : config.type ≠ .mlfq := by simp [ht]
  -- a choice of ticks that spoils the order of several processes
  have hno : 2 ≤ jobs.length → ∀ t ts, config.enablePreemption = 0 ∨ t = 0 →
      ¬ FifoOrder config jobs (t :: ts) := by
    intro h2 t ts hsl
    obtain ⟨j, hj⟩ : ∃ j, jobs[0]? = some j := ⟨_, List.getElem?_eq_getElem (by omega)⟩
    apply not_fifoOrder ht' hn h2 hj
    exact hsl.imp id .inl
  constructor
  · constructor
    · intro hall
      by_contra hlt
      obtain ⟨n, hlen⟩ : ∃ n, jobs.length = n + 1 := ⟨jobs.length - 1, by omega⟩
      apply hno (by omega) 0 (List.replicate n 0) (.inr rfl)
      exact hall _ (by simp [hlen])
    · intro hle ts hts
      exact fifoOrder_single ht hle hts
  · intro hpre ts hts
    constructor
    · intro horder
      by_contra hlt
      cases ts with
      | nil =>
        rw [List.length_nil] at hts
        omega
      | cons t ts => exact hno (by omega) t ts (.inl hpre) horder
    · intro hle
      exact fifoOrder_single ht hle hts

/-- Three processes without preemption: the condition says no. -/
theorem fifoOrder_iff_run : (∀ ts : List Nat, ts.length = 1 →
    FifoOrder ⟨.fifo, 10, 1, 0, 0⟩ [([80], 0)] ts) ∧
    ¬ FifoOrder ⟨.fifo, 10, 0, 0, 0⟩ [([80], 0), ([81], 1), ([82], 2)] [3, 0, 7] := by
  constructor
  · exact (fifoOrder_iff ⟨.fifo, 10, 1, 0, 0⟩ [([80], 0)] rfl (by decide)).1.mpr (by decide)
  · intro horder
    have hiff := (fifoOrder_iff ⟨.fifo, 10, 0, 0, 0⟩ [([80], 0), ([81], 1), ([82], 2)] rfl
      (by decide)).2 rfl [3, 0, 7] rfl
    exact absurd (hiff.mp horder) (by decide)

/-- Two processes: after the first one ends, none runs. -/
theorem not_fifoOrder_two : ¬ ∀ config jobs ts, config.type = .fifo → jobs.length ≤ 64 →
    ts.length = jobs.length → FifoOrder config jobs ts := by
  intro hall
  obtain ⟨s, ps, vs, hst, hv, horder⟩ :=
    hall ⟨.fifo, 10, 0, 0, 0⟩ [([80], 0), ([81], 0)] [0, 0] rfl (by decide) rfl
  have hx : (start ⟨.fifo, 10, 0, 0, 0⟩ [([80], 0), ([81], 0)]).bind (fun r =>
      (visited r.1 (rounds [0, 0])).map fun vs => (r.2, vs.map State.current)) =
      some ([some 0, some 1], [some 0, none, none]) := by decide +kernel
  rw [hst, Option.bind_some, hv, Option.map_some] at hx
  obtain ⟨rfl, hcur⟩ := Prod.mk.inj (Option.some.inj hx)
  rw [hcur] at horder
  exact absurd horder (by decide)

end OSCompas.Scheduler
