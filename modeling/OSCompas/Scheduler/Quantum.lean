import OSCompas.Scheduler.Slices

/-!
# The round-robin quantum

`scheduler_rr_init` writes the quantum into every slot once, and `scheduler_create_process` writes
`10 * (4 - priority)` over it.

* `State.Contested` — another process is ready;
* `Stint` — a state beside the ticks the current process had in a row while it was contested;
* `Honoured` — the property;
* `QuantumOk` — the condition on a call and the state before it.

Principal results: `step_inTurn` and `quantum_honoured`.
-/

set_option autoImplicit false

namespace OSCompas.Scheduler

open Function Runs

variable {s s' : State} {c p x i : Slot} {config : Config} {op : Op} {o : Option Slot}

/-! ## Ticks in a row -/

/-- A process other than `c` is ready. -/
def State.Contested (s : State) (c : Slot) : Prop := ∃ x, x ≠ c ∧ (s.pcb x).state = .ready

instance (s : State) (c : Slot) : Decidable (s.Contested c) :=
  inferInstanceAs (Decidable (∃ _, _))

/-- The call leaves the current slot to the process that has it. -/
def State.Occupied (s : State) : Op → Prop
  | .create _ _ => findFreePcb s ≠ s.current
  | .terminate pid => ∀ c ∈ s.current, (s.pcb c).pid = pid → findProcess s pid = none
  | _ => True

instance (s : State) (op : Op) : Decidable (s.Occupied op) := by
  delta State.Occupied
  exact match op with
  | .create _ _ | .terminate _ | .yield | .tick | .schedule => inferInstance

/-- A state, beside the ticks in a row the current process had while another was ready. -/
structure Stint where
  state : State
  ran : Nat
  /-- The most that any process had. -/
  longest : Nat

def Stint.init (config : Config) : Stint := ⟨schedulerInit config, 0, 0⟩

/-- The ticks in a row of `c` with one more. -/
def Stint.ticked (b : Stint) (c : Slot) : Nat := if b.state.Contested c then b.ran + 1 else 0

/-- The call `op` led to the state `s`. -/
def Stint.record (b : Stint) (op : Op) (s : State) : Stint :=
  match op with
  | .tick =>
    match b.state.current with
    | none => ⟨s, 0, b.longest⟩
    | some c => ⟨s, if s.current = some c then b.ticked c else 0, max b.longest (b.ticked c)⟩
  | op => ⟨s, if s.current = b.state.current ∧ b.state.Occupied op then b.ran else 0, b.longest⟩

def stepStint (b : Stint) (op : Op) : Option Stint := (step b.state op).map (b.record op)

def StintStep (b : Stint) (op : Op) (b' : Stint) : Prop := stepStint b op = some b'

/-- **The property**: the slice of every process is the quantum, and under preemption no process had
more ticks in a row while another was ready. -/
structure Honoured (b : Stint) : Prop where
  slice : ∀ p, b.state.Live p → (b.state.pcb p).timeSlice = b.state.config.timeQuantum
  longest : b.state.config.enablePreemption ≠ 0 →
    b.longest ≤ b.state.config.timeQuantum.toNat

/-- The condition: the slice a creation computes is the quantum; and where the quantum of the
current process ends while another is ready, the ready queue starts with another process. -/
def QuantumOk (s : State) : Op → Prop
  | .create _ priority => findFreePcb s ≠ none → createdSlice priority = s.config.timeQuantum
  | .tick => s.config.enablePreemption ≠ 0 → ∀ c ∈ s.current, s.Contested c →
      s.config.timeQuantum ≠ 0 ∧ (s.pcb c).timeSliceUsed + 1 ≠ 0 ∧
      (s.config.timeQuantum ≤ (s.pcb c).timeSliceUsed + 1 →
        (s.links.queue .ready).count + 1 ≠ 0 ∧
        ∃ x, x ≠ c ∧ (s.links.queue .ready).head = some x)
  | _ => True

instance (s : State) (op : Op) : Decidable (QuantumOk s op) := by
  delta QuantumOk
  exact match op with
  | .create _ _ | .terminate _ | .yield | .tick | .schedule => inferInstance

def StintOk (b : Stint) (op : Op) : Prop := QuantumOk b.state op

instance (b : Stint) (op : Op) : Decidable (StintOk b op) :=
  inferInstanceAs (Decidable (QuantumOk _ _))

/-! ## The invariant -/

/-- What holds in a run that keeps to the condition. -/
structure InTurn (config : Config) (b : Stint) : Prop where
  policy : b.state.config = config
  slice : ∀ p, (b.state.pcb p).timeSlice = config.timeQuantum
  /-- The ticks in a row are part of what the process used of its slice. -/
  ran : config.enablePreemption ≠ 0 → b.ran ≠ 0 → ∃ c, b.state.current = some c ∧
    b.ran ≤ (b.state.pcb c).timeSliceUsed.toNat ∧
    (b.state.pcb c).timeSliceUsed.toNat < config.timeQuantum.toNat
  longest : config.enablePreemption ≠ 0 → b.longest ≤ config.timeQuantum.toNat

theorem InTurn.init (ht : config.type = .rr) : InTurn config (.init config) where
  policy := rfl
  slice p := by simp [Stint.init, schedulerInit, ht]
  ran _ h := absurd rfl h
  longest _ := Nat.zero_le _

theorem InTurn.honoured {b : Stint} (h : InTurn config b) : Honoured b where
  slice p _ := by rw [h.slice, h.policy]
  longest := by
    rw [h.policy]
    exact h.longest

/-- The slices stay the quantum where no slice is written. -/
theorem InTurn.slices {b : Stint} (ht : config.type = .rr) (h : InTurn config b)
    (hs : SliceStep b.state s') :
    s'.config = config ∧ ∀ p, (s'.pcb p).timeSlice = config.timeQuantum := by
  refine ⟨hs.config.trans h.policy, fun p => ?_⟩
  have hne : b.state.config.type ≠ .mlfq := by simp [h.policy, ht]
  rw [hs.slice hne, h.slice]

/-- A call that is no tick keeps the count of a process that stays. -/
theorem InTurn.stays {b : Stint} (h : InTurn config b) (hc : s'.config = config)
    (hslice : ∀ p, (s'.pcb p).timeSlice = config.timeQuantum) {stays : Prop} [Decidable stays]
    (hused : stays → s'.current = b.state.current ∧ ∀ c ∈ b.state.current,
      (s'.pcb c).timeSliceUsed = (b.state.pcb c).timeSliceUsed) :
    InTurn config ⟨s', if stays then b.ran else 0, b.longest⟩ := by
  refine ⟨hc, hslice, fun hp hn => ?_, h.longest⟩
  by_cases hst : stays
  · rw [if_pos hst] at hn ⊢
    obtain ⟨hcur, hu⟩ := hused hst
    obtain ⟨c, hbc, hran, hlt⟩ := h.ran hp hn
    refine ⟨c, hcur.trans hbc, ?_⟩
    rw [hu c hbc]
    exact ⟨hran, hlt⟩
  · rw [if_neg hst] at hn
    exact absurd rfl hn

/-- A dispatch clears the count of ticks used only of the process it switches to. -/
theorem SliceStep.current_used (h : SliceStep s s') :
    ∀ c ∈ s.current, (s'.pcb c).timeSliceUsed = (s.pcb c).timeSliceUsed := fun c hc => by
  rcases h.used c with hu | ⟨hne, -⟩
  · exact hu
  · exact absurd hc hne

/-- What a tick does to the process that is charged, if its quantum goes on. -/
theorem charged_used (s : State) (c : Slot) : ((s.charged c).pcb c).timeSliceUsed =
    (s.pcb c).timeSliceUsed + 1 := by
  simp [State.charged, charge]

theorem charged_slices (s : State) (c : Slot) : (s.charged c).config = s.config ∧
    ∀ p, ((s.charged c).pcb p).timeSlice = (s.pcb p).timeSlice := by
  refine ⟨rfl, fun p => ?_⟩
  by_cases hp : p = c
  · subst hp
    simp [State.charged, charge]
  · simp [State.charged, charge, hp]

/-- Under round robin the yield of `c` dispatches the head of the ready queue. -/
theorem pickWith_head (ht : s.config.type ≠ .mlfq) (h0 : (s.links.queue .ready).count + 1 ≠ 0)
    (hx : (s.links.queue .ready).head = some x) : s.pickWith c = some x := by
  have hpos : (s.links.queue .ready).count + 1 > 0 := (count_pos_iff _).mpr h0
  unfold State.pickWith State.pickFrom State.scan
  rw [homeQueue_single ht, if_neg ht]
  simp [hpos, hx]

theorem ticked_contested {b : Stint} (h : b.ticked c ≠ 0) : b.state.Contested c := by
  unfold Stint.ticked at h
  split at h
  · assumption
  · exact absurd rfl h

/-- The count of a tick is at most the quantum. -/
theorem InTurn.ticked_le {b : Stint} (h : InTurn config b) (hp : config.enablePreemption ≠ 0)
    (hok : QuantumOk b.state .tick) (hc : b.state.current = some c) :
    b.ticked c ≤ config.timeQuantum.toNat := by
  unfold Stint.ticked
  by_cases hcon : b.state.Contested c
  · rw [if_pos hcon]
    obtain ⟨hq, -⟩ := hok (h.policy ▸ hp) c hc hcon
    rw [h.policy] at hq
    have hpos : config.timeQuantum.toNat ≠ 0 := fun h0 => hq (UInt32.toNat_inj.mp h0)
    by_cases hran : b.ran = 0
    · omega
    · obtain ⟨d, -, hle, hlt⟩ := h.ran hp hran
      omega
  · rw [if_neg hcon]
    exact Nat.zero_le _

/-- **The tick**: either the process goes on, within its quantum, or another one runs. -/
theorem InTurn.tick {b : Stint} (ht : config.type = .rr) (h : InTurn config b)
    (hok : QuantumOk b.state .tick) (hc : b.state.current = some c) (hs : tick b.state = some s') :
    InTurn config
      ⟨s', if s'.current = some c then b.ticked c else 0, max b.longest (b.ticked c)⟩ := by
  have hsl := tick_slices hc hs
  obtain ⟨hcfg, hslice⟩ := charged_slices b.state c
  have hne : (b.state.charged c).config.type ≠ .mlfq := by
    rw [hcfg, h.policy, ht]
    exact nofun
  refine ⟨hsl.config.trans h.policy, fun p => ?_, fun hp hn => ?_, fun hp => ?_⟩
  · rw [hsl.slice hne, hslice, h.slice]
  · dsimp only at hn ⊢
    split at hn
    · rename_i hcur
      rw [if_pos hcur]
      have hcon : b.state.Contested c := ticked_contested hn
      have hpre : b.state.config.enablePreemption ≠ 0 := h.policy ▸ hp
      have hle := h.ticked_le hp hok hc
      obtain ⟨hq, hwrap, hend⟩ := hok hpre c hc hcon
      rw [h.policy] at hq hend
      -- the quantum goes on: at its end another process would run
      have hgoes : ¬ config.timeQuantum ≤ (b.state.pcb c).timeSliceUsed + 1 := by
        intro hend'
        obtain ⟨hcount, x, hxc, hx⟩ := hend hend'
        have hpick := pickWith_head (c := c) (by simp [h.policy, ht]) hcount hx
        have hexp : b.state.expires c := ⟨hpre, by rw [h.slice]; exact hend'⟩
        rcases tick_effect hs with ⟨hno, -⟩ | ⟨d, hd, -, hcase⟩
        · exact hno c hc hexp
        · obtain rfl := Option.some.inj (hc.symm.trans hd)
          rcases hcase with ⟨hno | hno, -⟩ | ⟨y, hy, hyc, hsw⟩
          · cases hno.symm.trans hpick
          · exact hxc (Option.some.inj (hpick.symm.trans hno))
          · exact hyc (Option.some.inj (hsw.current.symm.trans hcur))
      have hused : (s'.pcb c).timeSliceUsed = (b.state.pcb c).timeSliceUsed + 1 := by
        rw [hsl.current_used c hc, charged_used]
      have hlt : ((b.state.pcb c).timeSliceUsed + 1).toNat < config.timeQuantum.toNat := by
        rw [UInt32.le_iff_toNat_le] at hgoes
        exact Nat.not_le.mp hgoes
      have hsucc : ((b.state.pcb c).timeSliceUsed + 1).toNat =
          (b.state.pcb c).timeSliceUsed.toNat + 1 := by
        have hw : ((b.state.pcb c).timeSliceUsed + 1).toNat ≠ 0 := fun h0 =>
          hwrap (UInt32.toNat_inj.mp h0)
        have hlt32 := (b.state.pcb c).timeSliceUsed.toNat_lt
        rw [UInt32.toNat_add] at hw ⊢
        simp only [UInt32.reduceToNat] at hw ⊢
        omega
      have hran : b.ticked c ≤ (b.state.pcb c).timeSliceUsed.toNat + 1 := by
        unfold Stint.ticked
        rw [if_pos hcon]
        by_cases hran : b.ran = 0
        · omega
        · obtain ⟨d, hd, hle', -⟩ := h.ran hp hran
          obtain rfl := Option.some.inj (hc.symm.trans hd)
          omega
      refine ⟨c, hcur, ?_, by rwa [hused]⟩
      rwa [hused, hsucc]
    · exact absurd rfl hn
  · exact max_le (h.longest hp) (h.ticked_le hp hok hc)

/-- A call that is no tick, and what the record makes of it. -/
theorem InTurn.other {b : Stint} (ht : config.type = .rr) (h : InTurn config b)
    (hs : SliceStep b.state s') : InTurn config
      ⟨s', if s'.current = b.state.current ∧ b.state.Occupied op then b.ran else 0, b.longest⟩ := by
  obtain ⟨hc, hslice⟩ := h.slices ht hs
  exact h.stays hc hslice fun hst => ⟨hst.1, hs.current_used⟩

/-- **A creation** of the right priority writes the quantum again. -/
theorem InTurn.create {b : Stint} {name : List UInt8} {priority : UInt8} (h : InTurn config b)
    (hok : QuantumOk b.state (.create name priority))
    (hcr : createProcess b.state name priority = some (s', o)) : InTurn config
      ⟨s', if s'.current = b.state.current ∧ b.state.Occupied (.create name priority)
        then b.ran else 0, b.longest⟩ := by
  rcases create_slot hcr with ⟨-, rfl⟩ | ⟨p, q, hf, hq, ha⟩
  · exact h.stays h.policy h.slice fun _ => ⟨rfl, fun _ _ => rfl⟩
  · obtain ⟨l, -, he⟩ := addToReadyQueue_effect ha
    have hpcb : s'.pcb = update b.state.pcb p q := by rw [he]
    have hcfg : s'.config = b.state.config := by rw [he]
    have hquantum : createdSlice priority = config.timeQuantum := by
      rw [← h.policy]
      exact hok (by simp [hf])
    refine h.stays (hcfg.trans h.policy) (fun y => ?_) fun hst => ⟨hst.1, fun c hc => ?_⟩
    · rw [hpcb]
      by_cases hy : y = p
      · subst hy
        simp [hq.slice.trans hquantum]
      · simp [hy, h.slice]
    · have hne : c ≠ p := fun hcp => hst.2 (by rw [hf, ← hcp]; exact hc.symm)
      simp [hpcb, hne]

/-- **The step.** -/
theorem step_inTurn {b b' : Stint} (ht : config.type = .rr) (h : InTurn config b)
    (hok : StintOk b op) (hst : StintStep b op b') : InTurn config b' := by
  obtain ⟨s', hs, rfl⟩ := Option.map_eq_some_iff.mp hst
  cases op with
  | create name priority =>
    obtain ⟨⟨s₁, o⟩, hcr, rfl⟩ := Option.map_eq_some_iff.mp hs
    exact h.create hok hcr
  | terminate pid =>
    rcases terminate_cases hs with ⟨-, rfl⟩ | ⟨i, hf, ⟨c, hc, hpid, hsch⟩ | ⟨-, rfl⟩⟩
    · exact h.other ht (SameSlices.refl _).toSliceStep
    · have hr := retire_slices b.state i
      have hv : SameSlices b.state { retire b.state i with current := none } :=
        ⟨hr.config, hr.table, hr.slice, hr.used⟩
      obtain ⟨hcfg, hslice⟩ := h.slices ht hv.toSliceStep
      have h1 : InTurn config ⟨{ retire b.state i with current := none }, 0, b.longest⟩ :=
        ⟨hcfg, hslice, fun _ hn => absurd rfl hn, h.longest⟩
      obtain ⟨hcfg', hslice'⟩ := h1.slices ht (schedule_slices hsch)
      refine h.stays hcfg' hslice' fun hstay => ?_
      have hnone := hstay.2 c hc hpid
      cases hnone.symm.trans hf
    · exact h.other ht (retire_slices b.state i).toSliceStep
  | yield => exact h.other ht (yield_slices hs)
  | tick =>
    unfold Stint.record
    cases hc : b.state.current with
    | none =>
      rcases tick_cases hs with ⟨-, rfl⟩ | ⟨c, -, hc', -⟩
      · exact ⟨h.policy, h.slice, fun _ hn => absurd rfl hn, h.longest⟩
      · cases hc.symm.trans hc'
    | some c => exact h.tick ht hok hc hs
  | schedule => exact h.other ht (schedule_slices hs)

/-! ## The property -/

/-- **The round-robin quantum is honoured** in every run that keeps to the condition. -/
theorem quantum_honoured {b : Stint} (ht : config.type = .rr)
    (hrun : Reaches StintStep StintOk (.init config) b) : Honoured b :=
  (hrun.invariant (.init ht) fun _ _ _ h hok hs => step_inTurn ht h hok hs).honoured

/-- Two processes of priority 3 share the CPU in turns of 10 ticks. -/
theorem quantum_honoured_two : ∃ b : Stint, b.longest = 10 ∧ b.state.current = some 1 ∧
    Honoured b := by
  have hx : (exec stepStint (fun b op => decide (StintOk b op)) (.init ⟨.rr, 10, 1, 0, 0⟩)
      ([.create [] 3, .create [] 3, .schedule] ++ List.replicate 10 .tick)).map
      (fun b => (b.longest, b.state.current)) = some (10, some 1) := by decide +kernel
  obtain ⟨b, hb, hobs⟩ := Option.map_eq_some_iff.mp hx
  simp only [Prod.mk.injEq] at hobs
  have hrun : Reaches StintStep StintOk (.init ⟨.rr, 10, 1, 0, 0⟩) b :=
    reaches_of_exec (fun _ _ h => of_decide_eq_true h) (fun _ _ _ h => h) hb
  exact ⟨b, hobs.1, hobs.2, quantum_honoured rfl hrun⟩

/-- A process of priority 0 has the slice 40 whatever the quantum is, and runs for 11 ticks in a
row. -/
theorem quantum_not_honoured : ¬ ∀ config (b : Stint), config.type = .rr →
    Reaches StintStep anyAction (.init config) b → Honoured b := by
  intro hall
  have hx : (exec stepStint (fun _ _ => true) (.init ⟨.rr, 10, 1, 0, 0⟩)
      ([.create [] 0, .create [] 0, .schedule] ++ List.replicate 11 .tick)).map
      (fun b => (b.longest, (b.state.pcb 0).timeSlice, decide (b.state.Live 0),
        b.state.config.timeQuantum)) = some (11, 40, true, 10) := by decide +kernel
  obtain ⟨b, hb, hobs⟩ := Option.map_eq_some_iff.mp hx
  simp only [Prod.mk.injEq, decide_eq_true_eq] at hobs
  obtain ⟨-, hslice, hlive, hquantum⟩ := hobs
  have hrun : Reaches StintStep anyAction (.init ⟨.rr, 10, 1, 0, 0⟩) b :=
    reaches_of_exec (fun _ _ _ => trivial) (fun _ _ _ h => h) hb
  have hsame := (hall _ b rfl hrun).slice 0 hlive
  rw [hslice, hquantum] at hsame
  exact absurd hsame (by decide)

end OSCompas.Scheduler
