import OSCompas.Lib.Turns
import OSCompas.Scheduler.Batch
import Mathlib.Data.List.Rotate

/-!
# Round robin

A batch of processes of one priority under `SCHED_RR` with preemption.  `scheduler_create_process`
overwrites the slice that `scheduler_rr_init` set, so the turns are not one quantum long.

* `RoundRobin` — the processes run in turns, and no two of them are far apart;
* `Turned` — what the end of a slice does: the ready queue turns by one;
* `Ring` — the processes after `k` ticks;
* `Single` — the only process runs.

Principal results: `yield_turned`, `ring_run`, `single_run` and `fair_iff`.
-/

set_option autoImplicit false

namespace OSCompas.Scheduler

open Function Turns

variable {config : Config} {jobs : List Job} {s s' : State} {c p x : Slot} {ws : List Slot}
variable {S n k t q : Nat} {T : UInt32}

/-- The processes become current in the cyclic order of creation, and at no moment up to `t` has
one been running for more than `q` ticks longer than another one. -/
def RoundRobin (config : Config) (jobs : List Job) (t q : Nat) : Prop :=
  ∃ s ps, start config jobs = some (s, ps) ∧ ∃ turn : Nat → Nat, turn 0 = 0 ∧
    (∀ k, k < t → turn (k + 1) = turn k ∨ turn (k + 1) = turn k + 1) ∧
    ∀ k, k ≤ t → ∃ s', ticks k s = some s' ∧ ps[turn k % ps.length]? = some s'.current ∧
      ∀ p p', some p ∈ ps → some p' ∈ ps →
        (s'.pcb p).timeUsed.toNat ≤ (s'.pcb p').timeUsed.toNat + q

/-! ## The end of a slice -/

/-- `x` runs, and `c` is the last one waiting. -/
structure Turned (s : State) (c x : Slot) (ws : List Slot) (s' : State) : Prop where
  config : s'.config = s.config
  current : s'.current = some x
  line : Lined s'.links .ready (ws ++ [c])
  first : ∀ p ∈ (ws ++ [c]).head?, s'.links.prev p = none
  count : (s'.links.queue .ready).count = (s.links.queue .ready).count + 1
  used : ∀ p, (s'.pcb p).timeUsed = (s.pcb p).timeUsed
  slice : ∀ p, (s'.pcb p).timeSlice = (s.pcb p).timeSlice
  sliceUsed : (s'.pcb x).timeSliceUsed = 0

/-- The ready current process is added again by `scheduler_rr_schedule`. -/
theorem rrSchedule_ready {l l' : Links} (ht : s.config.type = .rr) (hc : s.current = some c)
    (hr : (s.pcb c).state = .ready) (hd : s.links.dequeue .ready = some (l, some x))
    (h0 : (s.links.queue .ready).count ≠ 0) (hl : l.enqueue .ready c = some l') :
    selectNext s = some ({ s with links := l' }, some x) := by
  have hadd : addToReadyQueue { s with links := l } c = some { s with links := l' } :=
    addToReadyQueue_single (s := { s with links := l })
      (by show s.config.type ≠ _; rw [ht]; decide) hl
  rw [hc] at hadd
  unfold selectNext
  rw [ht]
  dsimp only
  unfold rrSchedule
  simp only [fifoSchedule_some hd h0, hc, hr, hadd, if_true, Option.bind_eq_bind,
    Option.bind_some]
  rfl

theorem setState_ready (s : State) (c : Slot) : ((s.setState c .ready).pcb c).state = .ready := by
  rw [setState_state, if_pos rfl]

theorem setState_clocks (s : State) (c : Slot) (st : ProcessState) (p : Slot) :
    ((s.setState c st).pcb p).timeUsed = (s.pcb p).timeUsed ∧
      ((s.setState c st).pcb p).timeSlice = (s.pcb p).timeSlice := by
  unfold State.setState
  by_cases hp : p = c
  · simp [hp]
  · simp [hp]

/-- **At the end of a slice the queue turns by one.**  The process that gives way is added three
times, which leaves the list as it is once it is the last one. -/
theorem yield_turned (ht : s.config.type = .rr) (hcur : s.current = some c)
    (hl : Lined s.links .ready (x :: ws)) (hc : c ∉ x :: ws) (hx : s.links.prev x = none)
    (h1 : (s.links.queue .ready).count + 1 ≠ 0) (h2 : (s.links.queue .ready).count + 2 ≠ 0) :
    ∃ s', yield s = some s' ∧ Turned s c x ws s' := by
  have hne : s.config.type ≠ .mlfq := by simp [ht]
  have hxc : x ≠ c := fun he => hc (by simp [he])
  -- the current process is added
  obtain ⟨l₁, e₁⟩ := hl.enqueue_some c
  have hl₁ := hl.enqueue hc e₁
  have hc₁ : (l₁.queue .ready).count = (s.links.queue .ready).count + 1 := by
    rw [(enqueue_eq e₁).1, update_self]
  have hx₁ : l₁.prev x = none := (enqueue_prev e₁ hxc).trans hx
  -- the head is taken off
  obtain ⟨l₂, d₂, hl₂, hc₂, hn₂, -, hp₂, -⟩ := hl₁.dequeue
  have hxout : x ∉ ws ++ [c] := (List.nodup_cons.mp hl₁.nodup).1
  have hx₂ : l₂.prev x = none := (hp₂ x fun he => hxout (List.mem_of_head? he)).trans hx₁
  have hnext₂ : l₂.next x = (ws ++ [c]).head? := by
    have hchain := hl₁.next
    rw [hn₂]
    cases ws with
    | nil => exact (List.isChain_cons_cons.mp hchain).1
    | cons y ys => exact (List.isChain_cons_cons.mp hchain).1
  -- `c` is the last one and is added twice more
  obtain ⟨l₃, e₃⟩ := hl₂.enqueue_some c
  have hl₃ := hl₂.again e₃
  obtain ⟨l₄, e₄⟩ := hl₃.enqueue_some c
  have hl₄ := hl₃.again e₄
  have hlast : ∀ {l : Links}, Lined l .ready (ws ++ [c]) → (l.queue .ready).tail ≠ some x := by
    intro l hl he
    rw [hl.tail, List.getLast?_concat] at he
    exact hxc (Option.some.inj he).symm
  have hnext₄ : l₄.next x = (ws ++ [c]).head? := by
    rw [((enqueue_eq e₄).2 x hxc (hlast hl₃)).1, ((enqueue_eq e₃).2 x hxc (hlast hl₂)).1]
    exact hnext₂
  have hx₄ : l₄.prev x = none := by
    rw [enqueue_prev e₄ hxc, enqueue_prev e₃ hxc]
    exact hx₂
  have hc₄ : (l₄.queue .ready).count = (s.links.queue .ready).count + 2 := by
    rw [(enqueue_eq e₄).1, update_self, (enqueue_eq e₃).1, update_self]
    show (l₂.queue .ready).count + 1 + 1 = _
    rw [hc₂, hc₁, UInt32.add_sub_cancel, UInt32.add_assoc]
    rfl
  -- the head is taken out once more
  obtain ⟨hl₅, hf₅⟩ := hl₄.unlink hxout (by simp) hx₄ hnext₄
  let s₁ : State := { s.setState c .ready with links := l₁ }
  let s₃ : State := { s₁ with links := l₃ }
  let s₄ : State := { s₃.setState c .ready with links := l₄ }
  have hadd₁ : addToReadyQueue (s.setState c .ready) c = some s₁ :=
    addToReadyQueue_single (s := s.setState c .ready) hne e₁
  have hsel : selectNext s₁ = some (s₃, some x) := by
    apply rrSchedule_ready (s := s₁) ht hcur (setState_ready s c) d₂ _ e₃
    show (l₁.queue .ready).count ≠ 0
    rw [hc₁]
    exact h1
  have hadd₄ : addToReadyQueue (s₃.setState c .ready) c = some s₄ :=
    addToReadyQueue_single (s := s₃.setState c .ready) hne e₄
  have hcur₃ : s₃.current = some c := hcur
  have hsw := switchTo_effect s₄ x
  have hlinks : (switchTo s₄ x).links = l₄.unlink .ready x :=
    switchTo_single (s := s₄) hne x
  have hpcb := switchTo_pcb s₄ x
  have hclock : ∀ p, (s₄.pcb p).timeUsed = (s.pcb p).timeUsed ∧
      (s₄.pcb p).timeSlice = (s.pcb p).timeSlice := by
    intro p
    obtain ⟨ha, hb⟩ := setState_clocks s₃ c .ready p
    obtain ⟨ha', hb'⟩ := setState_clocks s c .ready p
    exact ⟨ha.trans ha', hb.trans hb'⟩
  refine ⟨switchTo s₄ x, ?_, ?_⟩
  · have hcx : ¬ some c = some x := fun he => hxc (Option.some.inj he).symm
    unfold yield
    simp only [hcur, hadd₁, Option.bind_eq_bind, Option.bind_some]
    unfold schedule
    simp only [hsel, hcur₃, hcx, if_false, hadd₄, Option.bind_eq_bind, Option.bind_some]
    rfl
  · constructor
    · exact hsw.1.config
    · exact hsw.2.1
    · rw [hlinks]
      exact hl₅
    · rw [hlinks]
      exact hf₅
    · rw [hlinks, unlink_queue, update_self]
      show unlinkCount (l₄.queue .ready).count = _
      have htwo : (2 : UInt32) = 1 + 1 := rfl
      rw [hc₄]
      unfold unlinkCount
      rw [if_pos ((count_pos_iff _).mpr h2), htwo, ← UInt32.add_assoc, UInt32.add_sub_cancel]
    · intro p
      rw [hpcb]
      by_cases hp : p = x
      · rw [hp, update_self]
        exact (hclock x).1
      · rw [update_of_ne hp]
        exact (hclock p).1
    · intro p
      rw [hpcb]
      by_cases hp : p = x
      · rw [hp, update_self]
        exact (hclock x).2
      · rw [update_of_ne hp]
        exact (hclock p).2
    · rw [hpcb, update_self]

/-! ## Several processes -/

/-- After `k` ticks: `n` processes with the slice `T` take turns of `S` ticks. -/
structure Ring (config : Config) (n S : Nat) (T : UInt32) (k : Nat) (s : State) : Prop where
  config : s.config = config
  ring : ∃ c ws, (slots 0 n).rotate (k / S) = c :: ws ∧ s.current = some c ∧
    Lined s.links .ready ws ∧ (∀ p ∈ ws.head?, s.links.prev p = none) ∧
      (s.pcb c).timeSliceUsed = UInt32.ofNat (k % S)
  count : (s.links.queue .ready).count = UInt32.ofNat (n - 2 + k / S)
  slice : ∀ i, i < n → (s.pcb (slot i)).timeSlice = T
  used : ∀ i, i < n → (s.pcb (slot i)).timeUsed = UInt32.ofNat (served S n i k)

theorem slots_length (i n : Nat) : (slots i n).length = n := by simp [slots]

/-- The head of the ring is the process whose turn it is. -/
theorem ring_head {m : Nat} (hn : 0 < n) (h : (slots 0 n).rotate m = c :: ws) :
    c = slot (m % n) := by
  have hlt : m % n < (slots 0 n).length := by
    rw [slots_length]
    exact Nat.mod_lt m hn
  have hmod := List.rotate_mod (slots 0 n) m
  rw [slots_length] at hmod
  have hhead := List.head?_rotate hlt
  rw [hmod, h, List.head?_cons, List.getElem?_eq_getElem hlt] at hhead
  rw [Option.some.inj hhead]
  simp [slots]

theorem ring_next {m : Nat} (h : (slots 0 n).rotate m = c :: x :: ws) :
    (slots 0 n).rotate (m + 1) = x :: (ws ++ [c]) := by
  rw [← List.rotate_rotate, h]
  rfl

theorem ofNat_toNat {m : Nat} (h : m < 2 ^ 32) : (UInt32.ofNat m).toNat = m :=
  UInt32.toNat_ofNat_of_lt' h

theorem ofNat_succ (m : Nat) : UInt32.ofNat (m + 1) = UInt32.ofNat m + 1 := by
  rw [UInt32.ofNat_add]
  rfl

/-- A charge is one more tick for the process whose turn it is. -/
theorem Ring.charged (h : Ring config n S T k s) (hn : 0 < n) (hn' : n ≤ 64)
    (hc : s.current = some c) : (∀ i, i < n → ((s.charged c).pcb (slot i)).timeSlice = T) ∧
      ((s.charged c).pcb c).timeSliceUsed = UInt32.ofNat (k % S) + 1 ∧
        ∀ i, i < n → ((s.charged c).pcb (slot i)).timeUsed = UInt32.ofNat (served S n i (k + 1)) := by
  obtain ⟨d, ws, hring, hcur, -, -, hsu⟩ := h.ring
  obtain rfl : c = d := Option.some.inj (hc.symm.trans hcur)
  have hturn := ring_head hn hring
  refine ⟨fun i hi => ?_, ?_, fun i hi => ?_⟩
  · have hT := h.slice i hi
    unfold State.charged charge
    by_cases he : slot i = c
    · rw [he] at hT
      simp [he, hT]
    · simp [he, hT]
  · unfold State.charged charge
    simp [hsu]
  · have hU := h.used i hi
    have hiff : slot i = c ↔ k / S % n = i := by
      rw [hturn, slot_inj (by omega) (by have := Nat.mod_lt (k / S) hn; omega)]
      exact eq_comm
    rw [served_succ]
    unfold State.charged charge
    by_cases he : slot i = c
    · rw [if_pos (hiff.mp he), ofNat_succ, ← hU]
      simp [he]
    · rw [if_neg (fun h => he (hiff.mpr h)), Nat.add_zero, ← hU]
      simp [he]

/-- The slice ends with the last tick of a turn. -/
theorem Ring.expires_iff (h : Ring config n S T k s) (hS : S = max 1 T.toNat) (hn : 0 < n)
    (hp : config.enablePreemption ≠ 0) (hc : s.current = some c) :
    s.expires c ↔ k % S + 1 = S := by
  have hT := T.toNat_lt
  have hlt := Nat.mod_lt k (by omega : S > 0)
  obtain ⟨d, ws, hring, hcur, -, -, hsu⟩ := h.ring
  obtain rfl : c = d := Option.some.inj (hc.symm.trans hcur)
  have hturn := ring_head hn hring
  have hslice : (s.pcb c).timeSlice = T := by
    rw [hturn]
    exact h.slice _ (Nat.mod_lt _ hn)
  unfold State.expires
  rw [h.config, hslice, hsu, ← ofNat_succ, UInt32.le_iff_toNat_le, ofNat_toNat (by omega)]
  constructor
  · rintro ⟨-, hle⟩
    omega
  · intro he
    exact ⟨hp, by omega⟩

/-- **One more tick.** -/
theorem Ring.tick (h : Ring config n S T k s) (hS : S = max 1 T.toNat) (ht : config.type = .rr)
    (hp : config.enablePreemption ≠ 0) (hn : 2 ≤ n) (hn' : n ≤ 64)
    (hroom : (k + 1) / S + n ≤ 2 ^ 32) : ∃ s', tick s = some s' ∧ Ring config n S T (k + 1) s' := by
  have hS0 : 0 < S := by omega
  obtain ⟨c, ws, hring, hcur, hline, hfirst, hsu⟩ := h.ring
  obtain ⟨hslice, hsused, hused⟩ := h.charged (by omega) hn' hcur
  have hty : s.config.type ≠ .mlfq := by simp [h.config, ht]
  have hch := charged_effect s c
  rw [tick_single hty hcur]
  rcases clock_succ hS0 k with ⟨hlt, hdiv, hmod⟩ | ⟨hlast, hdiv, hmod⟩
  · -- the turn goes on
    have hno : ¬ s.expires c := by
      rw [h.expires_iff hS (by omega) hp hcur]
      omega
    refine ⟨s.charged c, if_neg hno, ⟨h.config, ⟨c, ws, ?_, hcur, hline, hfirst, ?_⟩, ?_, hslice,
      hused⟩⟩
    · rw [hdiv]
      exact hring
    · rw [hsused, hmod, ofNat_succ]
    · rw [hdiv]
      exact h.count
  · -- the next turn begins
    have he : s.expires c := by
      rw [h.expires_iff hS (by omega) hp hcur]
      exact hlast
    have hlen : (c :: ws).length = n := by
      rw [← hring, List.length_rotate, slots_length]
    obtain ⟨x, ys, rfl⟩ : ∃ x ys, ws = x :: ys := by
      apply List.exists_cons_of_length_pos
      rw [List.length_cons] at hlen
      omega
    have hnd : (c :: x :: ys).Nodup := by
      rw [← hring, List.nodup_rotate]
      exact slots_nodup (by omega)
    rw [hdiv] at hroom
    have hc1 : (s.links.queue .ready).count + 1 ≠ 0 := by
      rw [h.count, ← ofNat_succ]
      exact ofNat_ne_zero (Nat.succ_pos _) (by omega)
    have hc2 : (s.links.queue .ready).count + 2 ≠ 0 := by
      have htwo : (2 : UInt32) = 1 + 1 := rfl
      rw [h.count, htwo, ← UInt32.add_assoc, ← ofNat_succ, ← ofNat_succ]
      exact ofNat_ne_zero (Nat.succ_pos _) (by omega)
    obtain ⟨s', hy, hturn⟩ := yield_turned (s := s.charged c) (by rw [hch.config]; simp [h.config, ht])
      (hch.current.trans hcur) hline (List.nodup_cons.mp hnd).1 (hfirst x rfl) hc1 hc2
    refine ⟨s', by rw [if_pos he, hy], ?_⟩
    constructor
    · exact hturn.config.trans h.config
    · refine ⟨x, ys ++ [c], ?_, hturn.current, hturn.line, hturn.first, ?_⟩
      · rw [hdiv]
        exact ring_next hring
      · rw [hmod, hturn.sliceUsed]
        rfl
    · rw [hturn.count, hdiv, ← Nat.add_assoc, ofNat_succ, ← h.count]
      rfl
    · intro i hi
      rw [hturn.slice]
      exact hslice i hi
    · intro i hi
      rw [hturn.used]
      exact hused i hi

/-- **A run of ticks**, as long as the count of the ready queue does not go around. -/
theorem ring_run (h : Ring config n S T 0 s) (hS : S = max 1 T.toNat) (ht : config.type = .rr)
    (hp : config.enablePreemption ≠ 0) (hn : 2 ≤ n) (hn' : n ≤ 64) (hroom : k / S + n ≤ 2 ^ 32) :
    ∃ s', ticks k s = some s' ∧ Ring config n S T k s' := by
  induction k with
  | zero => exact ⟨s, rfl, h⟩
  | succ k ih =>
    have hle : k / S ≤ (k + 1) / S := Nat.div_le_div_right (by omega)
    obtain ⟨s₁, h1, hr₁⟩ := ih (by omega)
    obtain ⟨s₂, h2, hr₂⟩ := hr₁.tick hS ht hp hn hn' hroom
    refine ⟨s₂, ?_, hr₂⟩
    unfold ticks
    rw [h1, Option.bind_some, h2]

/-- A batch that has just started is a ring. -/
theorem Started.ring (h : Started config jobs s) (hn : 2 ≤ jobs.length) (hn' : jobs.length ≤ 64)
    (hT : ∀ j ∈ jobs, Scheduler.slice j.2 = T) : Ring config jobs.length S T 0 s := by
  have hfresh : ∀ i, i < jobs.length → ∃ j ∈ jobs, Fresh (s.pcb (slot i)) i j := by
    intro i hi
    have hval := slot_val (show i < 64 by omega)
    have hf := h.job (slot i) jobs[i] (by rw [hval]; exact List.getElem?_eq_getElem hi)
    rw [hval] at hf
    exact ⟨_, List.getElem_mem hi, hf⟩
  constructor
  · exact h.config
  · refine ⟨slot 0, slots 1 (jobs.length - 1), ?_, h.current, h.line, h.first, ?_⟩
    · rw [Nat.zero_div, List.rotate_zero, ← slots_cons]
      congr 1
      omega
    · obtain ⟨j, -, hf⟩ := hfresh 0 (by omega)
      rw [hf.timeSliceUsed, Nat.zero_mod]
      rfl
  · rw [Nat.zero_div, Nat.add_zero]
    exact h.count
  · intro i hi
    obtain ⟨j, hj, hf⟩ := hfresh i hi
    exact hf.timeSlice.trans (hT j hj)
  · intro i hi
    obtain ⟨j, -, hf⟩ := hfresh i hi
    rw [hf.timeUsed, served_zero]
    rfl

/-! ## One process -/

/-- The only process runs; the ready queue holds nothing else. -/
structure Single (s : State) : Prop where
  type : s.config.type = .rr
  current : s.current = some (slot 0)
  line : Lined s.links .ready [] ∨ Lined s.links .ready [slot 0]

theorem Single.add {l : Links} (h : Lined l .ready [] ∨ Lined l .ready [p]) :
    ∃ l', l.enqueue .ready p = some l' ∧ Lined l' .ready [p] ∧
      (l'.queue .ready).count = (l.queue .ready).count + 1 := by
  rcases h with h | h
  · obtain ⟨l', he⟩ := h.enqueue_some p
    refine ⟨l', he, h.enqueue (by simp) he, ?_⟩
    rw [(enqueue_eq he).1, update_self]
  · obtain ⟨l', he⟩ := h.enqueue_some p
    have h : Lined l .ready ([] ++ [p]) := h
    refine ⟨l', he, h.again he, ?_⟩
    rw [(enqueue_eq he).1, update_self]

/-- It yields to itself; every time it is counted once more. -/
theorem Single.yield (h : Single s) : ∃ s', yield s = some s' ∧ Single s' := by
  have hne : s.config.type ≠ .mlfq := by simp [h.type]
  obtain ⟨l₁, e₁, hl₁, hc₁⟩ := Single.add h.line
  let s₁ : State := { s.setState (slot 0) .ready with links := l₁ }
  have hadd₁ : addToReadyQueue (s.setState (slot 0) .ready) (slot 0) = some s₁ :=
    addToReadyQueue_single (s := s.setState (slot 0) .ready) hne e₁
  have hy : Scheduler.yield s = schedule s₁ := by
    unfold Scheduler.yield
    simp only [h.current, hadd₁, Option.bind_eq_bind, Option.bind_some]
  rw [hy]
  by_cases h0 : (l₁.queue .ready).count = 0
  · -- the count has gone around, and the policy finds nothing
    exact ⟨s₁, schedule_empty (s := s₁) hne h0, h.type, h.current, .inr hl₁⟩
  · obtain ⟨l₂, d₂, hl₂, -⟩ := hl₁.dequeue
    obtain ⟨l₃, e₃, hl₃, -⟩ := Single.add (p := slot 0) (.inl hl₂)
    have hsel : selectNext s₁ = some ({ s₁ with links := l₃ }, some (slot 0)) :=
      rrSchedule_ready (s := s₁) h.type h.current (setState_ready s (slot 0)) d₂ h0 e₃
    refine ⟨{ s₁ with links := l₃ }, ?_, h.type, h.current, .inr hl₃⟩
    unfold schedule
    simp only [hsel, Option.bind_eq_bind, Option.bind_some]
    exact if_pos h.current

theorem Single.tick (h : Single s) : ∃ s', tick s = some s' ∧ Single s' := by
  have hs : Single (s.charged (slot 0)) := ⟨h.type, h.current, h.line⟩
  rw [tick_single (by simp [h.type]) h.current]
  split
  · exact hs.yield
  · exact ⟨_, rfl, hs⟩

theorem single_run (h : Single s) (k : Nat) : ∃ s', ticks k s = some s' ∧ Single s' := by
  induction k with
  | zero => exact ⟨s, rfl, h⟩
  | succ k ih =>
    obtain ⟨s₁, h1, hs₁⟩ := ih
    obtain ⟨s₂, h2, hs₂⟩ := hs₁.tick
    refine ⟨s₂, ?_, hs₂⟩
    unfold ticks
    rw [h1, Option.bind_some, h2]

/-! ## Fairness -/

/-- The ticks of a turn: a slice of no length still lasts to the next tick. -/
def turnLength (priority : UInt8) : Nat := max 1 (slice priority).toNat

/-- Processes of one priority. -/
def equals (names : List (List UInt8)) (priority : UInt8) : List Job := names.map (·, priority)

/-- In `t` ticks neither the count of the ready queue nor the time of the first process goes
around. -/
def NoWrap (n S t : Nat) : Prop := t / S + n ≤ 2 ^ 32 ∧ served S n 0 t < 2 ^ 32

variable {names : List (List UInt8)} {priority : UInt8}

theorem turnLength_lt (priority : UInt8) : turnLength priority < 2 ^ 32 := by
  have hlt := (slice priority).toNat_lt
  unfold turnLength
  omega

theorem equals_slice : ∀ j ∈ equals names priority, slice j.2 = slice priority := by
  intro j hj
  obtain ⟨name, -, rfl⟩ := List.mem_map.mp hj
  rfl

theorem equals_length (names : List (List UInt8)) (priority : UInt8) :
    (equals names priority).length = names.length := List.length_map _

theorem mem_started : some p ∈ (slots 0 n).map some ↔ p ∈ slots 0 n := by simp

/-- A single process is treated fairly for ever. -/
theorem roundRobin_single (ht : config.type = .rr) (hn : jobs.length = 1) :
    RoundRobin config jobs t q := by
  obtain ⟨s, hst, hs⟩ := start_started config jobs (by simp [ht]) (by omega)
    (by omega)
  have hsingle : Single s := by
    refine ⟨by rw [hs.config]; exact ht, hs.current, .inl ?_⟩
    have hline := hs.line
    rw [hn] at hline
    exact hline
  refine ⟨s, _, hst, fun _ => 0, rfl, fun _ _ => .inl rfl, fun k _ => ?_⟩
  obtain ⟨s', hk, hs'⟩ := single_run hsingle k
  refine ⟨s', hk, ?_, fun p p' hp hp' => ?_⟩
  · rw [hs'.current, hn]
    rfl
  · rw [hn, mem_started, mem_slots (by omega)] at hp hp'
    obtain rfl : p = p' := Fin.ext (by omega)
    omega

/-- **Several processes are treated fairly** while no counter goes around, up to a turn. -/
theorem roundRobin_several (ht : config.type = .rr) (hp : config.enablePreemption ≠ 0)
    (hn : 2 ≤ names.length) (hn' : names.length ≤ 64)
    (hroom : NoWrap names.length (turnLength priority) t)
    (hq : min t (turnLength priority) ≤ q) : RoundRobin config (equals names priority) t q := by
  have hlen := equals_length names priority
  obtain ⟨s, hst, hs⟩ := start_started config (equals names priority)
    (by simp [ht]) (by omega) (by omega)
  have hS : 0 < turnLength priority := Nat.lt_of_lt_of_le Nat.one_pos (Nat.le_max_left _ _)
  have hring := hs.ring (S := turnLength priority) (by omega) (by omega) equals_slice
  rw [hlen] at hring hst
  refine ⟨s, _, hst, fun k => k / turnLength priority, Nat.zero_div _, fun k _ => ?_,
    fun k hk => ?_⟩
  · rcases clock_succ hS k with ⟨-, h1, -⟩ | ⟨-, h1, -⟩
    · exact .inl h1
    · exact .inr h1
  · have hle : k / turnLength priority ≤ t / turnLength priority := Nat.div_le_div_right hk
    obtain ⟨s', hs', hr⟩ := ring_run (k := k) hring rfl ht hp hn hn' (le_trans (by omega) hroom.1)
    obtain ⟨c, ws, hrot, hcur, -⟩ := hr.ring
    refine ⟨s', hs', ?_, fun p p' hpm hpm' => ?_⟩
    · have hmod := Nat.mod_lt (k / turnLength priority) (show 0 < names.length by omega)
      rw [hcur, ring_head (by omega) hrot]
      simp [slots, hmod]
    · rw [mem_started, mem_slots (by omega)] at hpm hpm'
      -- the time of a process is what the turns give it
      have htime : ∀ i : Slot, i.val < names.length → (s'.pcb i).timeUsed.toNat =
          served (turnLength priority) names.length i k := by
        intro i hi
        have hu := hr.used i hi
        rw [slot_self] at hu
        rw [hu, ofNat_toNat]
        calc served (turnLength priority) names.length i k
            ≤ served (turnLength priority) names.length 0 k := served_le_first hS hi
          _ ≤ served (turnLength priority) names.length 0 t := served_mono hk
          _ < 2 ^ 32 := hroom.2
      rw [htime p (by omega), htime p' (by omega)]
      have h1 := served_le_add (t := k) hS (i := p) (j := p') (n := names.length) (by omega)
        (by omega)
      have h2 : served (turnLength priority) names.length p k ≤ k := served_le
      omega

/-- The first process is ahead by all the ticks of its first turn. -/
theorem RoundRobin.bound (ht : config.type = .rr) (hp : config.enablePreemption ≠ 0)
    (hn : 2 ≤ names.length) (hn' : names.length ≤ 64)
    (h : RoundRobin config (equals names priority) t q) : min t (turnLength priority) ≤ q := by
  have hlen := equals_length names priority
  obtain ⟨s, ps, hst, turn, -, -, hall⟩ := h
  obtain ⟨s₁, hst₁, hs⟩ := start_started config (equals names priority)
    (by simp [ht]) (by omega) (by omega)
  obtain ⟨rfl, rfl⟩ := Prod.mk.inj (Option.some.inj (hst.symm.trans hst₁))
  have hring := hs.ring (S := turnLength priority) (by omega) (by omega) equals_slice
  rw [hlen] at hring hall
  have hlt := turnLength_lt priority
  generalize hk : min t (turnLength priority) = k at *
  have hdiv : k / turnLength priority ≤ 1 := by
    apply Nat.div_le_of_le_mul
    omega
  obtain ⟨s', hs', hr⟩ := ring_run (k := k) hring rfl ht hp hn hn' (by omega)
  obtain ⟨s₂, hs₂, -, hfair⟩ := hall k (by omega)
  obtain rfl := Option.some.inj (hs'.symm.trans hs₂)
  have hle := hfair (slot 0) (slot 1)
    (by rw [mem_started, mem_slots (by omega), slot_val (by omega)]; omega)
    (by rw [mem_started, mem_slots (by omega), slot_val (by omega)]; omega)
  rw [hr.used 0 (by omega), hr.used 1 (by omega), served_first (by omega),
    served_other (by omega) (by omega), ofNat_toNat (by omega), ofNat_toNat (by omega)] at hle
  omega

/-- **Fairness within one quantum**: there is one process, or the turns (or the run) are no longer
than the quantum. -/
theorem fair_iff (config : Config) (names : List (List UInt8)) (priority : UInt8) (t : Nat)
    (ht : config.type = .rr) (hp : config.enablePreemption ≠ 0)
    (hn : 1 ≤ names.length) (hn' : names.length ≤ 64) :
    (RoundRobin config (equals names priority) t config.timeQuantum.toNat →
      names.length = 1 ∨ min t (turnLength priority) ≤ config.timeQuantum.toNat) ∧
    (names.length = 1 ∨ NoWrap names.length (turnLength priority) t ∧
        min t (turnLength priority) ≤ config.timeQuantum.toNat →
      RoundRobin config (equals names priority) t config.timeQuantum.toNat) := by
  constructor
  · intro h
    by_cases h1 : names.length = 1
    · exact .inl h1
    · exact .inr (h.bound ht hp (by omega) hn')
  · intro h
    by_cases h1 : names.length = 1
    · exact roundRobin_single ht ((equals_length names priority).trans h1)
    · obtain ⟨hroom, hq⟩ := h.resolve_left h1
      exact roundRobin_several ht hp (by omega) hn' hroom hq

/-- Runs of up to `2 ^ 32 - n` ticks are short enough. -/
theorem noWrap_of_le (h : t + n ≤ 2 ^ 32) (hn : 1 ≤ n) : NoWrap n S t := by
  have hdiv : t / S ≤ t := Nat.div_le_self t S
  have hle : served S n 0 t ≤ t := served_le
  exact ⟨by omega, by omega⟩

/-- Three processes with turns of 40 ticks and a quantum of 50. -/
theorem fair_iff_run : RoundRobin ⟨.rr, 50, 1, 0, 0⟩ (equals [[80], [81], [82]] 0) 100000 50 := by
  apply (fair_iff ⟨.rr, 50, 1, 0, 0⟩ [[80], [81], [82]] 0 100000 rfl (by decide) (by decide)
    (by decide)).2
  right
  exact ⟨noWrap_of_le (by decide) (by decide), by decide⟩

/-- With a quantum of 1 the first process still runs for two ticks and more. -/
theorem not_fair : ¬ ∀ config names priority t, config.type = .rr → config.enablePreemption ≠ 0 →
    1 ≤ names.length → names.length ≤ 64 → 1 ≤ config.timeQuantum.toNat →
      RoundRobin config (equals names priority) t config.timeQuantum.toNat := by
  intro hall
  obtain ⟨s, ps, hst, turn, -, -, hrun⟩ :=
    hall ⟨.rr, 1, 1, 0, 0⟩ [[80], [81]] 0 2 rfl (by decide) (by decide) (by decide) (by decide)
  obtain ⟨s', hs', -, hfair⟩ := hrun 2 le_rfl
  have hx : (start ⟨.rr, 1, 1, 0, 0⟩ (equals [[80], [81]] 0)).bind (fun r =>
      (ticks 2 r.1).map fun s => (r.2, (s.pcb 0).timeUsed, (s.pcb 1).timeUsed)) =
      some ([some 0, some 1], 2, 0) := by decide +kernel
  rw [hst, Option.bind_some, hs', Option.map_some] at hx
  simp only [Option.some.injEq, Prod.mk.injEq] at hx
  obtain ⟨rfl, h0, h1⟩ := hx
  have hle := hfair 0 1 (by simp) (by simp)
  rw [h0, h1] at hle
  exact absurd hle (by decide)

end OSCompas.Scheduler
