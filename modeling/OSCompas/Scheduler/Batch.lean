import OSCompas.Scheduler.Effects
import OSCompas.Scheduler.Line

/-!
# A batch of processes

The runs the tests of the scheduler make: `scheduler_init`, a number of processes created one after
the other, one `scheduler_schedule`, and then ticks.  The processes stand in one ready queue.

* `createAll`, `start`, `ticks` — these calls;
* `Batch` — the table and the queue when the processes have been created;
* `Started` — the first process runs and the others wait in the order they were created in.

Principal results: `createAll_batch` and `start_started`.
-/

set_option autoImplicit false

namespace OSCompas.Scheduler

open Function

variable {config : Config} {s s' s₁ : State} {c p x : Slot} {xs : List Slot} {o : Option Slot}

/-! ## The calls -/

/-- The arguments of `scheduler_create_process`. -/
abbrev Job := List UInt8 × UInt8

/-- Create the processes one after the other; the second component is what the calls return. -/
def createAll : State → List Job → Option (State × List (Option Slot))
  | s, [] => some (s, [])
  | s, j :: js => do
    let (s, p) ← createProcess s j.1 j.2
    let (s, ps) ← createAll s js
    return (s, p :: ps)

/-- `scheduler_init`, the creations and one `scheduler_schedule`. -/
def start (config : Config) (jobs : List Job) : Option (State × List (Option Slot)) := do
  let (s, ps) ← createAll (schedulerInit config) jobs
  return (← schedule s, ps)

/-- `n` calls of `scheduler_tick`. -/
def ticks : Nat → State → Option State
  | 0, s => some s
  | n + 1, s => (ticks n s).bind tick

/-! ## The table -/

/-- The slot with the number `i`. -/
def slot (i : Nat) : Slot := Fin.ofNat 64 i

theorem slot_val {i : Nat} (h : i < 64) : (slot i).val = i := Nat.mod_eq_of_lt h

theorem slot_inj {i j : Nat} (hi : i < 64) (hj : j < 64) : slot i = slot j ↔ i = j := by
  rw [← Fin.val_inj, slot_val hi, slot_val hj]

theorem slot_self (i : Slot) : slot i.val = i := Fin.ext (slot_val i.isLt)

/-- The slots from `i` on, `n` of them. -/
def slots (i n : Nat) : List Slot := (List.range' i n).map slot

theorem slots_nodup {i n : Nat} (h : i + n ≤ 64) : (slots i n).Nodup := by
  apply List.Nodup.map_on _ (List.nodup_range' ..)
  intro a ha b hb hab
  rw [List.mem_range'_1] at ha hb
  exact (slot_inj (by omega) (by omega)).mp hab

theorem mem_slots {i n : Nat} (h : i + n ≤ 64) : p ∈ slots i n ↔ i ≤ p.val ∧ p.val < i + n := by
  unfold slots
  rw [List.mem_map]
  constructor
  · rintro ⟨a, ha, rfl⟩
    rw [List.mem_range'_1] at ha
    rw [slot_val (by omega)]
    exact ha
  · intro hp
    exact ⟨p.val, List.mem_range'_1.mpr hp, slot_self p⟩

/-- The slice `scheduler_create_process` gives. -/
def slice (priority : UInt8) : UInt32 := TIME_SLICE_BASE * (4 - priority.toUInt32)

/-- The PCB of the job `j`, the `i`-th that was created. -/
structure Fresh (q : Pcb) (i : Nat) (j : Job) : Prop where
  pid : q.pid = UInt32.ofNat (i + 1)
  timeUsed : q.timeUsed = 0
  timeSlice : q.timeSlice = slice j.2
  timeSliceUsed : q.timeSliceUsed = 0

/-- The jobs have been created, and nothing else happened. -/
structure Batch (config : Config) (jobs : List Job) (s : State) : Prop where
  config : s.config = config
  current : s.current = none
  nextPid : s.nextPid = UInt32.ofNat (jobs.length + 1)
  unused : ∀ i : Slot, jobs.length ≤ i.val → (s.pcb i).pid = 0
  live : ∀ i, (s.pcb i).state ≠ .terminated
  job : ∀ i j, jobs[i.val]? = some j → Fresh (s.pcb i) i.val j
  line : Lined s.links .ready (slots 0 jobs.length)
  count : (s.links.queue .ready).count = UInt32.ofNat jobs.length
  first : ∀ p ∈ (slots 0 jobs.length).head?, s.links.prev p = none
  last : ∀ p ∈ (slots 0 jobs.length).getLast?, s.links.next p = none

theorem Batch.init (config : Config) : Batch config [] (schedulerInit config) where
  config := rfl
  current := rfl
  nextPid := rfl
  unused := fun _ _ => rfl
  live := by simp [schedulerInit, Pcb.zero]
  job := by simp
  line := ⟨rfl, rfl, .nil, List.nodup_nil⟩
  count := rfl
  first := by simp [slots]
  last := by simp [slots]

theorem slots_concat (n : Nat) : slots 0 (n + 1) = slots 0 n ++ [slot n] := by
  unfold slots
  rw [List.range'_concat, List.map_append]
  simp

/-- The free slot is the next one. -/
theorem Batch.findFreePcb {jobs : List Job} (h : Batch config jobs s) (hn : jobs.length < 64) :
    findFreePcb s = some (slot jobs.length) := by
  have hval := slot_val hn
  unfold Scheduler.findFreePcb
  rw [← Fin.find?_eq_find?_finRange, Fin.find?_eq_some_iff]
  constructor
  · have hpid := h.unused (slot jobs.length) hval.ge
    simp [hpid]
  · intro i hi
    have hlt : i.val < jobs.length := hval ▸ hi
    have hpid := (h.job i jobs[i.val] (List.getElem?_eq_getElem hlt)).pid
    have hne : (s.pcb i).pid ≠ 0 := by
      rw [hpid]
      intro h0
      have h0 := congrArg UInt32.toNat h0
      rw [UInt32.toNat_ofNat_of_lt' (by show _ < 2 ^ 32; omega)] at h0
      exact absurd h0 (by simp)
    simp [hne, h.live i]

/-! ## Creating the processes -/

/-- A creation fills in the free slot and adds it. -/
theorem createProcess_single {name : List UInt8} {priority : UInt8} {l : Links}
    (ht : s.config.type ≠ .mlfq) (hf : Scheduler.findFreePcb s = some p)
    (hl : s.links.enqueue .ready p = some l) : ∃ s',
      createProcess s name priority = some (s', some p) ∧ s'.config = s.config ∧
        s'.current = s.current ∧ s'.nextPid = s.nextPid + 1 ∧ s'.links = l ∧
          (∀ y, y ≠ p → s'.pcb y = s.pcb y) ∧ (s'.pcb p).pid = s.nextPid ∧
            (s'.pcb p).state = .ready ∧ (s'.pcb p).timeUsed = 0 ∧
              (s'.pcb p).timeSlice = slice priority ∧ (s'.pcb p).timeSliceUsed = 0 := by
  unfold createProcess addToReadyQueue
  rw [hf]
  dsimp only
  rw [homeQueue_single (by exact ht)]
  simp only [hl, Option.map_some, Option.bind_eq_bind, Option.bind_some]
  refine ⟨_, rfl, rfl, rfl, rfl, rfl, fun y hy => update_of_ne hy _ _, ?_⟩
  simp [slice]

/-- **One more process**: it gets the next slot and stands at the end of the queue. -/
theorem Batch.create {jobs : List Job} {j : Job} (ht : config.type ≠ .mlfq)
    (h : Batch config jobs s) (hn : jobs.length < 64) : ∃ s',
      createProcess s j.1 j.2 = some (s', some (slot jobs.length)) ∧
        Batch config (jobs ++ [j]) s' := by
  have hval := slot_val hn
  have hout : slot jobs.length ∉ slots 0 jobs.length := by
    rw [mem_slots (by omega), hval]
    omega
  have htail : (s.links.queue .ready).tail ≠ some (slot jobs.length) := by
    rw [h.line.tail]
    exact fun he => hout (List.mem_of_getLast? he)
  obtain ⟨l, hl⟩ := h.line.enqueue_some (slot jobs.length)
  have hline := h.line.enqueue hout hl
  obtain ⟨s', hcr, hcfg, hcur, hpid, hlinks, hother, hself⟩ := createProcess_single
    (by rw [h.config]; exact ht) (h.findFreePcb hn) hl
  obtain ⟨hp, hst, hu, hs, hsu⟩ := hself
  have hlen : (jobs ++ [j]).length = jobs.length + 1 := by simp
  refine ⟨s', hcr, ?_⟩
  constructor
  · exact hcfg.trans h.config
  · exact hcur.trans h.current
  · rw [hpid, h.nextPid, hlen, UInt32.ofNat_add (jobs.length + 1) 1]
    rfl
  · intro i hi
    rw [hlen] at hi
    rw [hother i (fun he => by rw [he, hval] at hi; omega)]
    exact h.unused i (by omega)
  · intro i
    by_cases hi : i = slot jobs.length
    · rw [hi, hst]
      simp
    · rw [hother i hi]
      exact h.live i
  · intro i q hq
    by_cases hi : i.val < jobs.length
    · rw [List.getElem?_append_left hi] at hq
      rw [hother i (fun he => by rw [he, hval] at hi; omega)]
      exact h.job i q hq
    · have hle : i.val = jobs.length := by
        have hlt := (List.getElem?_eq_some_iff.mp hq).1
        rw [hlen] at hlt
        omega
      rw [hle, List.getElem?_concat_length] at hq
      obtain rfl := Option.some.inj hq
      obtain rfl : i = slot jobs.length := Fin.ext (hle.trans hval.symm)
      rw [hval]
      exact ⟨hp.trans h.nextPid, hu, hs, hsu⟩
  · rw [hlen, slots_concat, hlinks]
    exact hline
  · rw [hlinks, (enqueue_eq hl).1, update_self, hlen, h.count, UInt32.ofNat_add]
    rfl
  · intro p hp
    rw [hlen, slots_concat] at hp
    rw [hlinks]
    by_cases h0 : slots 0 jobs.length = []
    · rw [h0] at hp
      obtain rfl := Option.some.inj hp
      apply enqueue_first hl
      rw [h.line.head, h0]
      rfl
    · rw [List.head?_append_of_ne_nil _ h0] at hp
      have hne : p ≠ slot jobs.length := fun he => hout (he ▸ List.mem_of_head? hp)
      rw [enqueue_prev hl hne]
      exact h.first p hp
  · intro p hp
    rw [hlen, slots_concat, List.getLast?_concat] at hp
    obtain rfl := Option.some.inj hp
    rw [hlinks]
    exact enqueue_self hl htail

/-- **The processes of a batch** get the first slots, in the order they are created in. -/
theorem createAll_batch {done jobs : List Job} (ht : config.type ≠ .mlfq)
    (h : Batch config done s) (hn : done.length + jobs.length ≤ 64) : ∃ s',
      createAll s jobs = some (s', (slots done.length jobs.length).map some) ∧
        Batch config (done ++ jobs) s' := by
  induction jobs generalizing s done with
  | nil =>
    rw [List.append_nil]
    exact ⟨s, rfl, h⟩
  | cons j js ih =>
    rw [List.length_cons] at hn
    obtain ⟨s₁, h1, hb₁⟩ := h.create (j := j) ht (by omega)
    obtain ⟨s₂, h2, hb₂⟩ := ih hb₁ (by rw [List.length_append, List.length_singleton]; omega)
    rw [List.append_assoc] at hb₂
    refine ⟨s₂, ?_, hb₂⟩
    unfold createAll
    simp only [h1, h2, Option.bind_eq_bind, Option.bind_some]
    simp [slots, List.range'_succ]

/-! ## The first dispatch -/

theorem switchTo_pcb (s : State) (x : Slot) : (switchTo s x).pcb = update s.pcb x
    { s.pcb x with state := .running, timeStarted := s.systemTicks, timeSliceUsed := 0 } := by
  unfold switchTo
  dsimp only
  rw [removeFromReadyQueue_effect]

/-- With nothing running every policy but `SCHED_MLFQ` takes the head of the ready queue. -/
theorem selectNext_first {l : Links} (ht : s.config.type ≠ .mlfq) (hc : s.current = none)
    (hd : s.links.dequeue .ready = some (l, o)) (h0 : (s.links.queue .ready).count ≠ 0) :
    selectNext s = some ({ s with links := l }, o) := by
  have hf := fifoSchedule_some hd h0
  unfold selectNext
  split
  · exact hf
  · unfold rrSchedule
    simp only [hf, hc, Option.bind_eq_bind, Option.bind_some]
    rfl
  · exact absurd ‹_› ht
  · exact hf

theorem selectNext_empty (ht : s.config.type ≠ .mlfq)
    (h0 : (s.links.queue .ready).count = 0) : selectNext s = some (s, none) := by
  have hf : fifoSchedule s = some (s, none) := by
    unfold fifoSchedule
    rw [if_pos h0]
  unfold selectNext
  split
  · exact hf
  · unfold rrSchedule
    simp only [hf, Option.bind_eq_bind, Option.bind_some]
    rfl
  · exact absurd ‹_› ht
  · exact hf

theorem schedule_empty (ht : s.config.type ≠ .mlfq) (h0 : (s.links.queue .ready).count = 0) :
    schedule s = some s := by
  unfold schedule
  rw [selectNext_empty ht h0]
  rfl

theorem schedule_first {l : Links} (ht : s.config.type ≠ .mlfq) (hc : s.current = none)
    (hd : s.links.dequeue .ready = some (l, some x)) (h0 : (s.links.queue .ready).count ≠ 0) :
    schedule s = some (switchTo { s with links := l } x) := by
  unfold schedule
  rw [selectNext_first ht hc hd h0]
  simp [hc]

/-- The first process runs, the others wait. -/
structure Started (config : Config) (jobs : List Job) (s : State) : Prop where
  config : s.config = config
  current : s.current = some (slot 0)
  live : ∀ i, (s.pcb i).state ≠ .terminated
  job : ∀ i j, jobs[i.val]? = some j → Fresh (s.pcb i) i.val j
  line : Lined s.links .ready (slots 1 (jobs.length - 1))
  count : (s.links.queue .ready).count = UInt32.ofNat (jobs.length - 2)
  first : ∀ p ∈ (slots 1 (jobs.length - 1)).head?, s.links.prev p = none
  next : s.links.next (slot 0) = none
  prev : s.links.prev (slot 0) = none

theorem slots_cons (i n : Nat) : slots i (n + 1) = slot i :: slots (i + 1) n := by
  unfold slots
  rw [List.range'_succ, List.map_cons]

theorem ofNat_ne_zero {n : Nat} (h0 : 0 < n) (hn : n < 2 ^ 32) : UInt32.ofNat n ≠ 0 := by
  intro h
  have h := congrArg UInt32.toNat h
  rw [UInt32.toNat_ofNat_of_lt' hn] at h
  exact absurd h (by simp; omega)

theorem unlinkCount_ofNat {n : Nat} (hn : n < 2 ^ 32) :
    unlinkCount (UInt32.ofNat n) = UInt32.ofNat (n - 1) := by
  unfold unlinkCount
  cases n with
  | zero => rfl
  | succ n =>
    have hne := ofNat_ne_zero (Nat.succ_pos n) hn
    rw [if_pos ((count_pos_iff _).mpr hne), UInt32.ofNat_add]
    simp

/-- **`scheduler_schedule` starts the first process of a batch**; it is taken out twice, and one
too many is taken off the count. -/
theorem Batch.schedule {jobs : List Job} (ht : config.type ≠ .mlfq) (h : Batch config jobs s)
    (hpos : 0 < jobs.length) (hn : jobs.length ≤ 64) :
    ∃ s', schedule s = some s' ∧ Started config jobs s' := by
  obtain ⟨n, hlen⟩ : ∃ n, jobs.length = n + 1 := ⟨jobs.length - 1, by omega⟩
  have hline := h.line
  have hfirst := h.first
  have hlast := h.last
  have hcount := h.count
  rw [hlen] at hcount
  rw [hlen, slots_cons] at hline hfirst hlast
  have ht' : s.config.type ≠ .mlfq := by
    rw [h.config]
    exact ht
  have hprev0 : s.links.prev (slot 0) = none := hfirst _ rfl
  have hnext0 : s.links.next (slot 0) = (slots 1 n).head? := by
    cases n with
    | zero => exact hlast _ rfl
    | succ n =>
      rw [slots_cons] at hline ⊢
      exact (List.isChain_cons_cons.mp hline.next).1
  obtain ⟨l, hd, hl, hc, hn', hfirst', hprev, -⟩ := hline.dequeue
  have h0 : (s.links.queue .ready).count ≠ 0 := by
    rw [hcount]
    exact ofNat_ne_zero (by omega) (by omega)
  have hout : slot 0 ∉ slots 1 n := (List.nodup_cons.mp hline.nodup).1
  have hlp : l.prev (slot 0) = none := by
    rw [hprev _ (fun he => hout (List.mem_of_head? he))]
    exact hprev0
  have hln : l.next (slot 0) = (slots 1 n).head? := by
    rw [hn']
    exact hnext0
  have hqcount : ((l.unlink .ready (slot 0)).queue .ready).count = UInt32.ofNat (n - 1) := by
    rw [unlink_queue, update_self]
    show unlinkCount _ = _
    rw [hc, hcount, UInt32.ofNat_add]
    simp only [UInt32.ofNat_one, UInt32.add_sub_cancel]
    exact unlinkCount_ofNat (by omega)
  have hlined : Lined (l.unlink .ready (slot 0)) .ready (slots 1 n) ∧
      ∀ p ∈ (slots 1 n).head?, (l.unlink .ready (slot 0)).prev p = none := by
    by_cases hnil : slots 1 n = []
    · rw [hnil] at hln ⊢
      refine ⟨⟨?_, ?_, .nil, List.nodup_nil⟩, by simp⟩
      · rw [unlink_queue, update_self]
        simp only [hlp, if_true]
        exact hln
      · rw [unlink_queue, update_self]
        have hln : l.next (slot 0) = none := hln
        simp only [hln, if_true]
        exact hlp
    · exact hl.unlink hout hnil hlp hln
  refine ⟨_, schedule_first ht' h.current hd h0, ?_⟩
  have hsw := switchTo_effect { s with links := l } (slot 0)
  have hlinks := switchTo_single (s := { s with links := l }) ht' (slot 0)
  have hself := unlink_links_self l .ready (slot 0)
  have hpcb := switchTo_pcb { s with links := l } (slot 0)
  constructor
  · exact hsw.1.config.trans h.config
  · exact hsw.2.1
  · intro i
    rw [hsw.2.2]
    split
    · simp
    · exact h.live i
  · intro i j hj
    have hfr := h.job i j hj
    rw [hpcb]
    by_cases hi : i = slot 0
    · rw [hi] at hfr ⊢
      rw [update_self]
      exact ⟨hfr.pid, hfr.timeUsed, hfr.timeSlice, rfl⟩
    · rw [update_of_ne hi]
      exact hfr
  · rw [hlinks, hlen]
    exact hlined.1
  · rw [hlinks, hlen]
    exact hqcount
  · rw [hlinks, hlen]
    exact hlined.2
  · rw [hlinks]
    exact hself.1
  · rw [hlinks]
    exact hself.2

/-- **The start of a batch.** -/
theorem start_started (config : Config) (jobs : List Job) (ht : config.type ≠ .mlfq)
    (hpos : 0 < jobs.length) (hn : jobs.length ≤ 64) : ∃ s,
      start config jobs = some (s, (slots 0 jobs.length).map some) ∧ Started config jobs s := by
  have hn' : ([] : List Job).length + jobs.length ≤ 64 := by simpa using hn
  obtain ⟨s₁, h1, hb⟩ := createAll_batch ht (Batch.init config) hn'
  obtain ⟨s₂, h2, hst⟩ := hb.schedule ht hpos hn
  refine ⟨s₂, ?_, hst⟩
  unfold start
  simp only [h1, h2, Option.bind_eq_bind, Option.bind_some]
  rfl

/-! ## Ticks -/

/-- Outside `SCHED_MLFQ` a tick is a charge, and a yield if the slice ends. -/
theorem tick_single (ht : s.config.type ≠ .mlfq) (hc : s.current = some c) :
    tick s = if s.expires c then yield (s.charged c) else some (s.charged c) := by
  have hcfg : ∀ s', yield (s.charged c) = some s' → s'.config.type ≠ .mlfq := by
    intro s' hy
    have hp := (yield_effect ((charged_effect s c).current.trans hc) hy).1
    rw [hp.config]
    exact ht
  unfold tick
  dsimp only
  split
  · rename_i hn
    exact nomatch hn.symm.trans hc
  · rename_i d hd
    obtain rfl : c = d := Option.some.inj (hc.symm.trans hd)
    split
    · rename_i he
      rw [if_pos ((charged_expires s c).mp he)]
      cases hy : yield (s.charged c) with
      | none =>
        show (yield (s.charged c)).bind _ = none
        rw [hy]
        rfl
      | some s' =>
        show (yield (s.charged c)).bind _ = some s'
        rw [hy, Option.bind_some, if_neg (hcfg s' hy)]
        rfl
    · rename_i he
      rw [if_neg (fun h => he ((charged_expires s c).mpr h))]
      exact if_neg ht

theorem charged_states (s : State) (c : Slot) : SameStates s (s.charged c) := by
  have h := (charged_effect s c).toSameStates
  exact ⟨h.config, h.pid, h.current, h.state⟩

theorem tick_idle (hc : s.current = none) :
    tick s = some { s with systemTicks := s.systemTicks + 1 } := by
  unfold tick
  dsimp only
  rw [hc]

end OSCompas.Scheduler
