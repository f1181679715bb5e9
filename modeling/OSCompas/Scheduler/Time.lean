import Mathlib.Algebra.BigOperators.Fin
import Mathlib.Algebra.Order.BigOperators.Group.Finset
import OSCompas.Scheduler.Dead

/-!
# Where CPU time goes

Every tick with a current process is charged to a PCB, and `scheduler_terminate_process` moves what
a PCB was charged to the statistics.

* `Links.Within P l` — every slot that the links and the queues name satisfies `P`;
* `Quiet` — a call that charges no time, completes no process, and names no slot anew;
* `Books` — a state beside what happened on the way to it: the ticks, the ticks that were charged,
  and which created processes were terminated;
* `TimeOk` — the condition.

Principal results: `schedule_quiet`, `step_balanced` and `time_conserved`.
-/

set_option autoImplicit false

namespace OSCompas.Scheduler

open Function Runs

variable {s s' s₁ : State} {l l' : Links} {k : QueueId} {c p x y i : Slot} {o : Option Slot}
variable {P : Slot → Prop} {config : Config} {op : Op}

/-! ## The slots that are named -/

/-- Every slot named by the links and the queues satisfies `P`. -/
structure Links.Within (P : Slot → Prop) (l : Links) : Prop where
  next : ∀ p, ∀ y ∈ l.next p, P y
  prev : ∀ p, ∀ y ∈ l.prev p, P y
  head : ∀ k, ∀ y ∈ (l.queue k).head, P y
  tail : ∀ k, ∀ y ∈ (l.queue k).tail, P y

/-- A link written to something that satisfies `P`. -/
theorem within_update {α : Type} [DecidableEq α] {f : α → Option Slot} {a : α}
    (hf : ∀ a, ∀ y ∈ f a, P y) (ho : ∀ y ∈ o, P y) : ∀ b, ∀ y ∈ update f a o b, P y := by
  intro b y hy
  by_cases hb : b = a
  · subst hb
    rw [update_self] at hy
    exact ho y hy
  · rw [update_of_ne hb] at hy
    exact hf b y hy

namespace Links.Within

/-- A queue written to something that satisfies `P`. -/
theorem setQueue {q : ReadyQueue} (h : l.Within P) (hh : ∀ y ∈ q.head, P y)
    (ht : ∀ y ∈ q.tail, P y) : Within P { l with queue := update l.queue k q } := by
  refine ⟨h.next, h.prev, fun j y hy => ?_, fun j y hy => ?_⟩ <;>
  · by_cases hj : j = k
    · subst hj
      simp only [update_self] at hy
      first | exact hh y hy | exact ht y hy
    · simp only [update_of_ne hj] at hy
      first | exact h.head j y hy | exact h.tail j y hy

theorem setNext (h : l.Within P) (ho : ∀ y ∈ o, P y) :
    Within P { l with next := update l.next p o } :=
  ⟨within_update h.next ho, h.prev, h.head, h.tail⟩

theorem setPrev (h : l.Within P) (ho : ∀ y ∈ o, P y) :
    Within P { l with prev := update l.prev p o } :=
  ⟨h.next, within_update h.prev ho, h.head, h.tail⟩

theorem append (h : l.Within P) (hp : P p) (ha : l.append k p = some l') : l'.Within P := by
  have hsome : ∀ y ∈ some p, P y := fun y hy => Option.mem_some.mp hy ▸ hp
  unfold Links.append at ha
  dsimp only at ha
  split at ha
  · cases ha
    exact h.setQueue hsome hsome
  · rename_i h₀ hh
    split at ha
    · cases ha
    · rename_i t ht
      cases ha
      have hold : ∀ y ∈ some h₀, P y := fun y hy => h.head k y (hh ▸ hy)
      have hlast : ∀ y ∈ some t, P y := fun y hy => h.tail k y (ht ▸ hy)
      exact ((h.setNext hsome).setPrev hlast).setQueue hold hsome

theorem enqueue (h : l.Within P) (hp : P p) (ha : l.enqueue k p = some l') : l'.Within P := by
  have h1 : Within P { l with next := update l.next p none, prev := update l.prev p none } :=
    (h.setNext (o := none) nofun).setPrev (o := none) nofun
  exact h1.append hp ha

theorem dequeue (h : l.Within P) (hd : l.dequeue k = some (l', o)) :
    l'.Within P ∧ ∀ y ∈ o, P y := by
  refine ⟨?_, fun y hy => h.head k y (dequeue_head hd ▸ hy)⟩
  unfold Links.dequeue at hd
  dsimp only at hd
  split at hd
  · cases hd
    exact h.setQueue nofun nofun
  · split at hd
    · cases hd
    · rename_i x hx
      cases hd
      cases hn : l.next x with
      | none => exact h.setQueue nofun (h.tail k)
      | some y =>
        have hy : ∀ z ∈ some y, P z := fun z hz => h.next x z (hn ▸ hz)
        exact (h.setPrev (p := y) (o := none) nofun).setQueue hy (h.tail k)

theorem unlink (h : l.Within P) (k : QueueId) (p : Slot) : (l.unlink k p).Within P := by
  refine ⟨fun y z hz => ?_, fun y z hz => ?_, fun j z hz => ?_, fun j z hz => ?_⟩
  · rw [unlink_next] at hz
    split at hz
    · cases hz
    · split at hz
      · exact h.next _ z hz
      · exact h.next _ z hz
  · rw [unlink_prev] at hz
    split at hz
    · cases hz
    · split at hz
      · exact h.prev _ z hz
      · exact h.prev _ z hz
  · rw [unlinked_head] at hz
    split at hz
    · exact h.next _ z hz
    · exact h.head _ z hz
  · rw [unlinked_tail] at hz
    split at hz
    · exact h.prev _ z hz
    · exact h.tail _ z hz

end Links.Within

/-- Every slot named by the links, the queues and `current_process` satisfies `P`. -/
structure Names (P : Slot → Prop) (s : State) : Prop where
  links : s.links.Within P
  current : ∀ c ∈ s.current, P c

/-! ## Calls that charge nothing -/

/-- No time is charged, no process is completed, and no slot is named outside `P`. -/
structure Quiet (P : Slot → Prop) (s s' : State) : Prop where
  timeUsed : ∀ p, (s'.pcb p).timeUsed = (s.pcb p).timeUsed
  completed : s'.stats.processesCompleted = s.stats.processesCompleted
  runtime : s'.stats.totalRuntime = s.stats.totalRuntime
  names : Names P s'

theorem Quiet.refl (hP : Names P s) : Quiet P s s := ⟨fun _ => rfl, rfl, rfl, hP⟩

theorem Quiet.trans {s'' : State} (h : Quiet P s s') (h' : Quiet P s' s'') : Quiet P s s'' :=
  ⟨fun p => (h'.timeUsed p).trans (h.timeUsed p), h'.completed.trans h.completed,
    h'.runtime.trans h.runtime, h'.names⟩

/-- Queues and links are rewritten, but name no new slot. -/
theorem Quiet.links (hP : Names P s) (h : l.Within P) : Quiet P s { s with links := l } :=
  ⟨fun _ => rfl, rfl, rfl, h, hP.current⟩

/-- A PCB is replaced by one charged with the same time. -/
theorem Quiet.pcb {q : Pcb} (hP : Names P s) (h : q.timeUsed = (s.pcb p).timeUsed) :
    Quiet P s { s with pcb := update s.pcb p q } := by
  refine ⟨fun y => ?_, rfl, rfl, hP.links, hP.current⟩
  by_cases hy : y = p
  · subst hy
    simp [h]
  · simp [hy]

theorem addToReadyQueue_quiet (hP : Names P s) (hp : P p) (h : addToReadyQueue s p = some s') :
    Quiet P s s' := by
  obtain ⟨l, hl, rfl⟩ := addToReadyQueue_effect h
  exact .links hP (hP.links.enqueue hp hl)

/-- The current process is made ready and added back. -/
theorem readd_quiet (hP : Names P s) (hc : s.current = some c)
    (h : addToReadyQueue (s.setState c .ready) c = some s') : Quiet P s s' := by
  have h1 : Quiet P s (s.setState c .ready) := .pcb hP rfl
  exact h1.trans (addToReadyQueue_quiet h1.names (hP.current c hc) h)

theorem removeFromReadyQueue_quiet (hP : Names P s) (p : Slot) :
    Quiet P s (removeFromReadyQueue s p) := by
  unfold removeFromReadyQueue
  split
  · exact .refl hP
  · exact .links hP (hP.links.unlink _ p)

theorem fifoSchedule_quiet (hP : Names P s) (h : fifoSchedule s = some (s₁, o)) :
    Quiet P s s₁ ∧ ∀ x ∈ o, P x := by
  rcases fifoSchedule_parts h with ⟨-, rfl, rfl⟩ | ⟨-, l, hd, rfl⟩
  · exact ⟨.refl hP, fun _ hx => nomatch hx⟩
  · obtain ⟨hl, ho⟩ := hP.links.dequeue hd
    exact ⟨.links hP hl, ho⟩

theorem rrSchedule_quiet (hP : Names P s) (h : rrSchedule s = some (s₁, o)) :
    Quiet P s s₁ ∧ ∀ x ∈ o, P x := by
  obtain ⟨s₂, hf, hs⟩ := rrSchedule_parts h
  obtain ⟨hq, ho⟩ := fifoSchedule_quiet hP hf
  rcases hs with ⟨rfl, -⟩ | ⟨x, c, -, hc, -, ha⟩
  · exact ⟨hq, ho⟩
  · exact ⟨hq.trans (addToReadyQueue_quiet hq.names (hq.names.current c hc) ha), ho⟩

theorem mlfqSchedule_quiet (hP : Names P s) (h : mlfqSchedule s = some (s₁, o)) :
    Quiet P s s₁ ∧ ∀ x ∈ o, P x := by
  rcases mlfqSchedule_parts h with ⟨-, rfl, rfl⟩ | ⟨i, l, p, -, hd, rfl, rfl⟩
  · exact ⟨.refl hP, fun _ hx => nomatch hx⟩
  · obtain ⟨hl, ho⟩ := hP.links.dequeue hd
    have h1 : Quiet P s { s with links := l } := .links hP hl
    exact ⟨h1.trans (.pcb h1.names rfl), ho⟩

theorem selectNext_quiet (hP : Names P s) (h : selectNext s = some (s₁, o)) :
    Quiet P s s₁ ∧ ∀ x ∈ o, P x := by
  unfold selectNext at h
  split at h
  · exact fifoSchedule_quiet hP h
  · exact rrSchedule_quiet hP h
  · exact mlfqSchedule_quiet hP h
  · exact fifoSchedule_quiet hP h

theorem switchTo_quiet (hP : Names P s) (hx : P x) : Quiet P s (switchTo s x) := by
  have h1 : Quiet P s { s with current := some x } :=
    ⟨fun _ => rfl, rfl, rfl, hP.links, fun y hy => Option.mem_some.mp hy ▸ hx⟩
  have h2 := h1.trans (.pcb (p := x) (q := { s.pcb x with
    state := .running, timeStarted := s.systemTicks, timeSliceUsed := 0 }) h1.names rfl)
  have h3 := h2.trans (removeFromReadyQueue_quiet h2.names x)
  exact ⟨h3.timeUsed, h3.completed, h3.runtime, h3.names.links, h3.names.current⟩

/-- **`scheduler_schedule` charges nothing.** -/
theorem schedule_quiet (hP : Names P s) (h : schedule s = some s') : Quiet P s s' := by
  obtain ⟨s₁, hsel, hst, hs⟩ := schedule_parts h
  obtain ⟨hq, ho⟩ := selectNext_quiet hP hsel
  obtain ⟨-, rfl⟩ | ⟨x, hx, -, ⟨-, rfl⟩ | ⟨c, s₂, hc, ha, rfl⟩⟩ := hs
  · exact hq
  · exact hq.trans (switchTo_quiet hq.names (ho x hx))
  · have h2 := hq.trans (readd_quiet hq.names (hst.current.trans hc) ha)
    exact h2.trans (switchTo_quiet h2.names (ho x hx))

theorem yield_quiet (hP : Names P s) (h : yield s = some s') : Quiet P s s' := by
  unfold yield at h
  split at h
  · exact schedule_quiet hP h
  · rename_i c hc
    obtain ⟨s₁, ha, h⟩ := Option.bind_eq_some_iff.mp h
    have h1 := readd_quiet hP hc ha
    exact h1.trans (schedule_quiet h1.names h)

theorem boostOne_quiet {j : Fin MAX_PRIORITY_LEVELS} (hP : Names P s) (h : boostOne s j = some s') :
    Quiet P s s' := by
  obtain ⟨p, l, l', hd, ha, rfl⟩ := boostOne_cases h
  obtain ⟨hl, ho⟩ := hP.links.dequeue hd
  have h1 : Quiet P s { s with links := l' } := .links hP (hl.append (ho p rfl) ha)
  exact h1.trans (.pcb h1.names rfl)

theorem boostPriority_quiet (hP : Names P s) (h : boostPriority s = some s') : Quiet P s s' := by
  refine boostPriority_rel (R := fun s s' => Names P s → Quiet P s s') (fun _ => .refl) ?_ ?_ h hP
  · intro s s' s'' h1 h2 hn
    exact (h1 hn).trans (h2 (h1 hn).names)
  · intro s s' j hb hn
    exact boostOne_quiet hn hb

/-- The end of a tick, under every policy. -/
theorem tickEnd_quiet (hP : Names P s)
    (h : (if s.config.type = .mlfq then tickMlfq s else some s) = some s') : Quiet P s s' := by
  obtain ⟨-, rfl⟩ | ⟨-, d, hend⟩ := tickEnd_parts h
  · exact .refl hP
  · have h1 : Quiet P s (s.aged d) := .pcb hP rfl
    rcases hend with ⟨-, rfl⟩ | ⟨-, t, hb, rfl⟩
    · exact h1
    · have h2 := h1.trans (boostPriority_quiet h1.names hb)
      exact ⟨h2.timeUsed, h2.completed, h2.runtime, h2.names.links, h2.names.current⟩

/-- After the charge, **a tick charges nothing more**. -/
theorem tick_quiet (hP : Names P s) (hc : s.current = some c) (h : tick s = some s') :
    Quiet P (s.charged c) s' := by
  have hch : Names P (s.charged c) := ⟨hP.links, hP.current⟩
  rcases tick_parts h with ⟨hn, -⟩ | ⟨c', s₁, hc', hsl, hend⟩
  · cases hn.symm.trans hc
  · obtain rfl := Option.some.inj (hc.symm.trans hc')
    rcases hsl with ⟨-, hy⟩ | ⟨-, rfl⟩
    · have hq := yield_quiet hch hy
      exact hq.trans (tickEnd_quiet hq.names hend)
    · exact tickEnd_quiet hch hend

/-! ## Who is dead -/

/-- No process ends or comes back, and no terminated one is current. -/
structure Kept (s s' : State) : Prop where
  pid : ∀ p, (s'.pcb p).pid = (s.pcb p).pid
  dead : ∀ p, (s'.pcb p).state = .terminated ↔ (s.pcb p).state = .terminated
  current : ∀ c ∈ s'.current, (s'.pcb c).state ≠ .terminated

/-- The current process is not terminated. -/
def State.CurrentAlive (s : State) : Prop := ∀ c ∈ s.current, (s.pcb c).state ≠ .terminated

/-- What a dispatch picks is not a terminated process. -/
def PicksLive (s : State) (o : Option Slot) : Prop := ∀ x ∈ o, (s.pcb x).state ≠ .terminated

instance (s : State) (o : Option Slot) : Decidable (PicksLive s o) := by
  delta PicksLive
  infer_instance

theorem SameStates.kept (h : SameStates s s') (hc : s.CurrentAlive) : Kept s s' := by
  refine ⟨h.pid, fun p => by rw [h.state], fun c hcur => ?_⟩
  rw [h.current] at hcur
  rw [h.state]
  exact hc c hcur

theorem Switched.kept (h : Switched s s' x) (hc : s.CurrentAlive)
    (hx : (s.pcb x).state ≠ .terminated) : Kept s s' := by
  refine ⟨h.pid, fun p => ?_, fun c hcur => ?_⟩
  · rw [h.state]
    by_cases hpx : p = x
    · subst hpx
      simp [hx]
    · by_cases hpc : s.current = some p
      · simp [hpx, hpc, hc p hpc]
      · simp [hpx, hpc]
  · obtain rfl : x = c := Option.some.inj (h.current.symm.trans hcur)
    rw [h.state, if_pos rfl]
    exact nofun

theorem schedule_kept (hc : s.CurrentAlive) (hp : PicksLive s s.pick) (h : schedule s = some s') :
    Kept s s' := by
  obtain ⟨-, ⟨-, hst⟩ | ⟨x, hx, -, hsw⟩⟩ := schedule_effect h
  · exact hst.kept hc
  · exact hsw.kept hc (hp x hx)

/-- The current process is made ready: it was not terminated, and is not. -/
theorem setState_kept (hc : s.CurrentAlive) (hcur : s.current = some c) :
    Kept s (s.setState c .ready) := by
  refine ⟨(setState_procs s c _).pid, fun p => ?_, fun d hd => ?_⟩
  · rw [setState_state]
    by_cases hpc : p = c
    · simp [hpc, hc c hcur]
    · simp [hpc]
  · obtain rfl : c = d := Option.some.inj (hcur.symm.trans hd)
    rw [setState_state, if_pos rfl]
    exact nofun

theorem Kept.trans {s'' : State} (h : Kept s s') (h' : Kept s' s'') : Kept s s'' :=
  ⟨fun p => (h'.pid p).trans (h.pid p), fun p => (h'.dead p).trans (h.dead p), h'.current⟩

/-- What a yield of `c` and the end of its time slice have in common. -/
theorem yielded_kept (hc : s.CurrentAlive) (hcur : s.current = some c)
    (hp : PicksLive s (s.pickWith c))
    (h : ((s.pickWith c = none ∨ s.pickWith c = some c) ∧ SameStates (s.setState c .ready) s') ∨
      ∃ x, s.pickWith c = some x ∧ x ≠ c ∧ Switched s s' x) : Kept s s' := by
  rcases h with ⟨-, hst⟩ | ⟨x, hx, -, hsw⟩
  · have h1 := setState_kept hc hcur
    exact h1.trans (hst.kept h1.current)
  · exact hsw.kept hc (hp x hx)

theorem yield_kept (hc : s.CurrentAlive)
    (hp : PicksLive s (s.current.elim s.pick s.pickWith)) (h : yield s = some s') : Kept s s' := by
  cases hcur : s.current with
  | none =>
    rw [hcur] at hp
    rw [yield_none hcur] at h
    exact schedule_kept hc hp h
  | some c =>
    rw [hcur] at hp
    exact yielded_kept hc hcur hp (yield_effect hcur h).2

theorem tick_kept (hc : s.CurrentAlive)
    (hp : ∀ c ∈ s.current, s.expires c → PicksLive s (s.pickWith c)) (h : tick s = some s') :
    Kept s s' := by
  rcases tick_effect h with ⟨-, hst⟩ | ⟨c, hcur, he, hy⟩
  · exact hst.kept hc
  · exact yielded_kept hc hcur (hp c hcur he) hy

/-! ## The books -/

/-- The PCB is in use, and its process is not terminated. -/
def State.Live (s : State) (p : Slot) : Prop := (s.pcb p).pid ≠ 0 ∧ (s.pcb p).state ≠ .terminated

instance (s : State) (p : Slot) : Decidable (s.Live p) := inferInstanceAs (Decidable (_ ∧ _))

/-- The sum of `time_used` over the live PCBs. -/
def State.liveTime (s : State) : Nat := ∑ p, if s.Live p then (s.pcb p).timeUsed.toNat else 0

/-- A state, beside what happened on the way to it. -/
structure Books where
  state : State
  /-- The calls of `scheduler_tick`. -/
  ticks : Nat
  /-- Those with a current process. -/
  charged : Nat
  /-- The successful calls of `scheduler_create_process`. -/
  created : Nat
  /-- Which of the processes created was given the slot last. -/
  occupant : Slot → Option Nat
  /-- The processes that `scheduler_terminate_process` found. -/
  ended : Finset Nat

def Books.init (config : Config) : Books := ⟨schedulerInit config, 0, 0, 0, fun _ => none, ∅⟩

/-- The call `op` led to the state `s`. -/
def Books.record (b : Books) (op : Op) (s : State) : Books :=
  match op with
  | .create _ _ =>
    match findFreePcb b.state with
    | none => { b with state := s }
    | some p => { b with
        state := s
        created := b.created + 1
        occupant := update b.occupant p (some b.created) }
  | .terminate pid =>
    match (findProcess b.state pid).bind b.occupant with
    | none => { b with state := s }
    | some n => { b with state := s, ended := insert n b.ended }
  | .tick => { b with
      state := s
      ticks := b.ticks + 1
      charged := if b.state.current = none then b.charged else b.charged + 1 }
  | _ => { b with state := s }

def stepBooked (b : Books) (op : Op) : Option Books := (step b.state op).map (b.record op)

def BookedStep (b : Books) (op : Op) (b' : Books) : Prop := stepBooked b op = some b'

/-- **The books balance.** -/
structure Conserved (b : Books) : Prop where
  time : b.state.stats.totalRuntime.toNat + b.state.liveTime = b.charged
  completed : b.state.stats.processesCompleted.toNat = b.ended.card

/-- The condition on a call and the state before it: a slot in use is created and terminated, and
no terminated process is dispatched. -/
def TimeOk (s : State) : Op → Prop
  | .create _ _ => findFreePcb s ≠ none → s.nextPid ≠ 0
  | .terminate pid => ∀ i ∈ findProcess s pid, pid ≠ 0 ∧ s.stats.processesCompleted + 1 ≠ 0 ∧
      ((∃ c ∈ s.current, (s.pcb c).pid = pid) →
        ∀ x ∈ s.pickWithout i, x ≠ i ∧ (s.pcb x).state ≠ .terminated)
  | .yield => PicksLive s (s.current.elim s.pick s.pickWith)
  | .tick => ∀ c ∈ s.current, s.expires c → PicksLive s (s.pickWith c)
  | .schedule => PicksLive s s.pick

instance (s : State) (op : Op) : Decidable (TimeOk s op) := by
  delta TimeOk
  exact match op with
  | .create _ _ | .terminate _ | .yield | .tick | .schedule => inferInstance

def BooksOk (b : Books) (op : Op) : Prop := TimeOk b.state op

instance (b : Books) (op : Op) : Decidable (BooksOk b op) := inferInstanceAs (Decidable (TimeOk _ _))

/-! ## Sums -/

/-- A sum of which one term changes. -/
theorem sum_change {f g : Slot → Nat} (p : Slot) (h : ∀ q, q ≠ p → g q = f q) :
    ∑ q, g q + f p = ∑ q, f q + g p := by
  have hrest : ∑ q ∈ Finset.univ.erase p, g q = ∑ q ∈ Finset.univ.erase p, f q :=
    Finset.sum_congr rfl fun q hq => h q (Finset.ne_of_mem_erase hq)
  rw [← Finset.add_sum_erase _ g (Finset.mem_univ p), ← Finset.add_sum_erase _ f (Finset.mem_univ p),
    hrest]
  omega

/-- What a PCB adds to the sum. -/
def State.share (s : State) (p : Slot) : Nat := if s.Live p then (s.pcb p).timeUsed.toNat else 0

theorem liveTime_eq (s : State) : s.liveTime = ∑ p, s.share p := rfl

theorem share_live (h : s.Live p) : s.share p = (s.pcb p).timeUsed.toNat := if_pos h

theorem share_dead (h : ¬ s.Live p) : s.share p = 0 := if_neg h

theorem share_le (s : State) (p : Slot) : s.share p ≤ s.liveTime :=
  Finset.single_le_sum (f := s.share) (fun _ _ => Nat.zero_le _) (Finset.mem_univ p)

theorem share_congr (hpcb : (s'.pcb p).pid = (s.pcb p).pid ∧
    ((s'.pcb p).state = .terminated ↔ (s.pcb p).state = .terminated) ∧
    (s'.pcb p).timeUsed = (s.pcb p).timeUsed) : s'.share p = s.share p := by
  obtain ⟨h1, h2, h3⟩ := hpcb
  have hlive : s'.Live p ↔ s.Live p := by
    unfold State.Live
    rw [h1]
    exact and_congr Iff.rfl (not_congr h2)
  by_cases h : s.Live p
  · rw [share_live h, share_live (hlive.mpr h), h3]
  · rw [share_dead h, share_dead fun hn => h (hlive.mp hn)]

/-- What is true of the books in a run that keeps to the condition. -/
structure Balanced (b : Books) : Prop where
  conserved : Conserved b
  charged : b.charged ≤ b.ticks
  names : Names (fun p => (b.state.pcb p).pid ≠ 0) b.state
  current : b.state.CurrentAlive
  occupied : ∀ p, (b.state.pcb p).pid ≠ 0 → ∃ n, b.occupant p = some n ∧
    (n ∈ b.ended ↔ (b.state.pcb p).state = .terminated)
  distinct : ∀ p q, ∀ n ∈ b.occupant p, b.occupant q = some n → p = q
  old : ∀ p, ∀ n ∈ b.occupant p, n < b.created
  ended : ∀ n ∈ b.ended, n < b.created

theorem Balanced.init (config : Config) : Balanced (.init config) where
  conserved := by
    refine ⟨?_, rfl⟩
    have h0 : ∀ p, (schedulerInit config).share p = 0 := fun p => share_dead fun h => h.1 rfl
    show 0 + ∑ p, (schedulerInit config).share p = 0
    simp [h0]
  charged := Nat.le_refl 0
  names := ⟨⟨nofun, nofun, nofun, nofun⟩, nofun⟩
  current := nofun
  occupied _ h := absurd rfl h
  distinct _ _ _ h := nomatch h
  old _ _ h := nomatch h
  ended := by simp [Books.init]

/-- **A quiet call keeps the books balanced.** -/
theorem Balanced.quiet {b : Books} (h : Balanced b)
    (hq : Quiet (fun p => (b.state.pcb p).pid ≠ 0) b.state s') (hk : Kept b.state s') :
    Balanced { b with state := s' } where
  conserved := by
    have hs : ∀ p, s'.share p = b.state.share p := fun p =>
      share_congr ⟨hk.pid p, hk.dead p, hq.timeUsed p⟩
    refine ⟨?_, (congrArg UInt32.toNat hq.completed).trans h.conserved.completed⟩
    show s'.stats.totalRuntime.toNat + ∑ p, s'.share p = b.charged
    simp only [hs, hq.runtime]
    exact h.conserved.time
  charged := h.charged
  names := by
    simp only [hk.pid]
    exact hq.names
  current := hk.current
  occupied p hp := by
    rw [hk.pid] at hp
    simp only [hk.dead]
    exact h.occupied p hp
  distinct := h.distinct
  old := h.old
  ended := h.ended

/-- **The charge of a tick.** -/
theorem Balanced.charge {b : Books} (h : Balanced b) (hc : b.state.current = some c)
    (ht : b.ticks + 1 < 2 ^ 32) : Balanced { b with
      state := b.state.charged c, ticks := b.ticks + 1, charged := b.charged + 1 } where
  conserved := by
    have hch := charged_effect b.state c
    refine ⟨?_, h.conserved.completed⟩
    have hlive : b.state.Live c := ⟨h.names.current c hc, h.current c hc⟩
    have hlive' : (b.state.charged c).Live c := by
      unfold State.Live
      rw [hch.pid, hch.state]
      exact hlive
    have hother : ∀ q, q ≠ c → (b.state.charged c).share q = b.state.share q := fun q hq => by
      have hpcb : (b.state.charged c).pcb q = b.state.pcb q := update_of_ne hq _ _
      exact share_congr (by simp [hpcb])
    have hone : (b.state.charged c).share c = b.state.share c + 1 := by
      have hle := share_le b.state c
      have htime := h.conserved.time
      have hticks := h.charged
      rw [share_live hlive] at hle
      rw [share_live hlive', share_live hlive]
      have hused : ((b.state.charged c).pcb c).timeUsed = (b.state.pcb c).timeUsed + 1 := by
        unfold State.charged Scheduler.charge
        simp
      have hfits : (b.state.pcb c).timeUsed.toNat + 1 < 2 ^ 32 := by omega
      rw [hused, UInt32.toNat_add]
      exact Nat.mod_eq_of_lt hfits
    have hsum := sum_change c hother
    show b.state.stats.totalRuntime.toNat + ∑ p, (b.state.charged c).share p = b.charged + 1
    have htime := h.conserved.time
    rw [liveTime_eq] at htime
    omega
  charged := Nat.succ_le_succ h.charged
  names := by
    simp only [(charged_effect b.state c).pid]
    exact ⟨h.names.links, h.names.current⟩
  current d hd := by
    rw [(charged_effect b.state c).state]
    exact h.current d hd
  occupied p hp := by
    rw [(charged_effect b.state c).pid] at hp
    simp only [(charged_effect b.state c).state]
    exact h.occupied p hp
  distinct := h.distinct
  old := h.old
  ended := h.ended

/-- The slot a successful creation fills, and the queue it enters. -/
theorem create_filled {name : List UInt8} {priority : UInt8}
    (h : createProcess s name priority = some (s', o)) :
    (findFreePcb s = none ∧ s' = s) ∨ ∃ p q k, findFreePcb s = some p ∧
      (q.pid = s.nextPid ∧ q.timeUsed = 0 ∧ q.state = .ready) ∧
      s.links.enqueue k p = some s'.links ∧ s'.pcb = update s.pcb p q ∧
      s'.stats = s.stats ∧ s'.current = s.current := by
  rcases create_slot h with ⟨hf, rfl⟩ | ⟨p, q, hf, hq, ha⟩
  · exact .inl ⟨hf, rfl⟩
  · obtain ⟨l, hl, rfl⟩ := addToReadyQueue_effect ha
    exact .inr ⟨p, q, _, hf, ⟨hq.pid, hq.unused, hq.state⟩, hl, rfl, rfl, rfl⟩

/-- A free slot adds nothing to the sum. -/
theorem free_share (h : findFreePcb s = some p) : s.share p = 0 := by
  have hfree : (s.pcb p).state = .terminated ∨ (s.pcb p).pid = 0 := by
    simpa using List.find?_some h
  exact share_dead fun hl => hfree.elim hl.2 hl.1

theorem Links.Within.mono {Q : Slot → Prop} (h : l.Within P) (hPQ : ∀ p, P p → Q p) :
    l.Within Q :=
  ⟨fun p y hy => hPQ y (h.next p y hy), fun p y hy => hPQ y (h.prev p y hy),
    fun k y hy => hPQ y (h.head k y hy), fun k y hy => hPQ y (h.tail k y hy)⟩

/-- **A creation**: the slot belongs to a new process, which was charged nothing yet. -/
theorem Balanced.create {b : Books} {q : Pcb} (h : Balanced b) (hf : findFreePcb b.state = some p)
    (hpid : q.pid ≠ 0) (hused : q.timeUsed = 0) (hready : q.state = .ready)
    (hl : b.state.links.enqueue k p = some s'.links) (hpcb : s'.pcb = update b.state.pcb p q)
    (hstats : s'.stats = b.state.stats) (hcur : s'.current = b.state.current) :
    Balanced { b with
      state := s', created := b.created + 1, occupant := update b.occupant p (some b.created) } := by
  have hself : s'.pcb p = q := by rw [hpcb, update_self]
  have hother : ∀ y, y ≠ p → s'.pcb y = b.state.pcb y := fun y hy => by
    rw [hpcb, update_of_ne hy]
  have hused' : ∀ y, (b.state.pcb y).pid ≠ 0 → (s'.pcb y).pid ≠ 0 := fun y hy => by
    by_cases hyp : y = p
    · rw [hyp, hself]
      exact hpid
    · rw [hother y hyp]
      exact hy
  have hp : (s'.pcb p).pid ≠ 0 := by rwa [hself]
  constructor
  · have hnew : s'.share p = 0 := by
      unfold State.share
      rw [hself, hused]
      exact ite_self 0
    have hsum := sum_change (f := b.state.share) (g := s'.share) p fun y hy =>
      share_congr (by simp [hother y hy])
    have htime := h.conserved.time
    rw [liveTime_eq] at htime
    rw [free_share hf, hnew] at hsum
    refine ⟨?_, by rw [hstats]; exact h.conserved.completed⟩
    show s'.stats.totalRuntime.toNat + ∑ y, s'.share y = b.charged
    rw [hstats]
    omega
  · exact h.charged
  · refine ⟨(h.names.links.mono hused').enqueue hp hl, fun c hc => ?_⟩
    rw [hcur] at hc
    exact hused' c (h.names.current c hc)
  · intro c hc
    by_cases hcp : c = p
    · rw [hcp, hself, hready]
      exact nofun
    · rw [hother c hcp]
      exact h.current c (hcur ▸ hc)
  · intro y hy
    by_cases hyp : y = p
    · subst hyp
      refine ⟨b.created, update_self .., ?_⟩
      simp only [hself, hready, reduceCtorEq, iff_false]
      exact fun hn => Nat.lt_irrefl _ (h.ended _ hn)
    · simp only [update_of_ne hyp, hother y hyp]
      rw [hother y hyp] at hy
      exact h.occupied y hy
  · intro y z n hn hz
    dsimp only at hn hz
    by_cases hyp : y = p <;> by_cases hzp : z = p
    · rw [hyp, hzp]
    · -- the number of the new process is on no other slot
      rw [hyp, update_self] at hn
      rw [update_of_ne hzp] at hz
      cases hn
      exact absurd (h.old z _ hz) (Nat.lt_irrefl _)
    · rw [hzp, update_self] at hz
      rw [update_of_ne hyp] at hn
      cases hz
      exact absurd (h.old y _ hn) (Nat.lt_irrefl _)
    · rw [update_of_ne hyp] at hn
      rw [update_of_ne hzp] at hz
      exact h.distinct y z n hn hz
  · intro y n hn
    dsimp only at hn
    by_cases hyp : y = p
    · rw [hyp, update_self] at hn
      cases hn
      exact Nat.lt_succ_self _
    · rw [update_of_ne hyp] at hn
      exact Nat.lt_succ_of_lt (h.old y n hn)
  · exact fun n hn => Nat.lt_succ_of_lt (h.ended n hn)

/-- What `scheduler_terminate_process` counts, before it may dispatch. -/
theorem retire_counts (s : State) (i : Slot) :
    (retire s i).stats.processesCompleted = s.stats.processesCompleted + 1 ∧
      (retire s i).stats.totalRuntime = s.stats.totalRuntime + (s.pcb i).timeUsed ∧
      ∀ p, ((retire s i).pcb p).timeUsed = (s.pcb p).timeUsed := by
  have hset : ∀ p, ((s.setState i .terminated).pcb p).timeUsed = (s.pcb p).timeUsed := fun p => by
    unfold State.setState
    by_cases hp : p = i
    · subst hp
      simp
    · simp [hp]
  unfold retire
  dsimp only
  rw [removeFromReadyQueue_effect]
  exact ⟨rfl, by dsimp only; rw [hset]; rfl, hset⟩

theorem retire_within (h : s.links.Within P) (i : Slot) : (retire s i).links.Within P := by
  rw [retire_links]
  split
  · exact h
  · exact h.unlink _ i

/-- **A termination** moves the time of one process from the sum to the statistics. -/
theorem Balanced.retire {b : Books} {n : Nat} (h : Balanced b) (hi : b.state.Live i)
    (hn : b.occupant i = some n) (hc : b.state.stats.processesCompleted + 1 ≠ 0)
    (hticks : b.ticks < 2 ^ 32) (ho : ∀ c ∈ o, c ≠ i ∧ b.state.current = some c) :
    Balanced { b with
      state := { Scheduler.retire b.state i with current := o }, ended := insert n b.ended } := by
  obtain ⟨hcount, hruntime, hused⟩ := retire_counts b.state i
  obtain ⟨hprocs, -, hstate⟩ := vacated_effect b.state i
  have hpid : ∀ p, ((Scheduler.retire b.state i).pcb p).pid = (b.state.pcb p).pid := hprocs.pid
  obtain ⟨m, hm, hend⟩ := h.occupied i hi.1
  obtain rfl : n = m := Option.some.inj (hn.symm.trans hm)
  have hnew : n ∉ b.ended := fun hmem => hi.2 (hend.mp hmem)
  have htime := h.conserved.time
  constructor
  · have hgone : (Scheduler.retire b.state i).share i = 0 :=
      share_dead fun hl => hl.2 (by rw [hstate, if_pos rfl])
    have hsum := sum_change (f := b.state.share) (g := (Scheduler.retire b.state i).share) i
      fun p hp => share_congr ⟨hpid p, by rw [hstate, if_neg hp], hused p⟩
    have hle := share_le b.state i
    have hcharged := h.charged
    rw [liveTime_eq] at htime hle
    rw [hgone, share_live hi] at hsum
    rw [share_live hi] at hle
    constructor
    · show (Scheduler.retire b.state i).stats.totalRuntime.toNat +
        ∑ p, (Scheduler.retire b.state i).share p = b.charged
      have hfits : b.state.stats.totalRuntime.toNat + (b.state.pcb i).timeUsed.toNat < 2 ^ 32 := by
        omega
      rw [hruntime, UInt32.toNat_add, Nat.mod_eq_of_lt hfits]
      omega
    · show (Scheduler.retire b.state i).stats.processesCompleted.toNat = (insert n b.ended).card
      rw [hcount, Finset.card_insert_of_notMem hnew, ← h.conserved.completed, UInt32.toNat_add]
      apply Nat.mod_eq_of_lt
      have hlt := b.state.stats.processesCompleted.toNat_lt
      have hne : b.state.stats.processesCompleted.toNat + 1 ≠ 2 ^ 32 := fun he => hc (by
        apply UInt32.toNat_inj.mp
        rw [UInt32.toNat_add]
        show (_ + 1) % 2 ^ 32 = 0
        rw [he, Nat.mod_self])
      show _ + 1 < 2 ^ 32
      omega
  · exact h.charged
  · simp only [hpid]
    exact ⟨retire_within h.names.links i, fun c hc => h.names.current c (ho c hc).2⟩
  · intro c hcur
    obtain ⟨hci, hold⟩ := ho c hcur
    show ((Scheduler.retire b.state i).pcb c).state ≠ .terminated
    rw [hstate, if_neg hci]
    exact h.current c hold
  · intro p hp
    dsimp only at hp ⊢
    rw [hpid] at hp
    obtain ⟨m, hm', hend'⟩ := h.occupied p hp
    refine ⟨m, hm', ?_⟩
    rw [hstate, Finset.mem_insert]
    by_cases hpi : p = i
    · subst hpi
      obtain rfl : n = m := Option.some.inj (hn.symm.trans hm')
      simp
    · have hne : m ≠ n := fun he => hpi (h.distinct p i m hm' (he ▸ hn))
      simp [hpi, hne, hend']
  · exact h.distinct
  · exact h.old
  · intro m hmem
    rcases Finset.mem_insert.mp hmem with rfl | hmem
    · exact h.old i m hn
    · exact h.ended m hmem

/-! ## Runs -/

/-- The dispatch of a call that changes no count. -/
theorem Balanced.dispatch {b : Books} (h : Balanced b) (hp : PicksLive b.state b.state.pick)
    (hs : schedule b.state = some s') : Balanced { b with state := s' } :=
  h.quiet (schedule_quiet h.names hs) (schedule_kept h.current hp hs)

/-- **A step that keeps to the condition keeps the books balanced.** -/
theorem step_balanced {b b' : Books} (h : Balanced b) (hok : BooksOk b op)
    (ht : b'.ticks < 2 ^ 32) (hbook : BookedStep b op b') : Balanced b' := by
  obtain ⟨s', hs, rfl⟩ := Option.map_eq_some_iff.mp hbook
  cases op with
  | create name priority =>
    obtain ⟨⟨s₁, o⟩, hcr, rfl⟩ := Option.map_eq_some_iff.mp hs
    unfold Books.record
    rcases create_filled hcr with ⟨hf, rfl⟩ | ⟨p, q, k, hf, ⟨hpid, hused, hready⟩, hl, hpcb, hst, hc⟩
    · simp only [hf]
      exact h
    · have hpid' : q.pid ≠ 0 := by
        rw [hpid]
        exact hok (by simp [hf])
      simp only [hf]
      exact h.create hf hpid' hused hready hl hpcb hst hc
  | terminate pid =>
    have hticks : b.ticks < 2 ^ 32 := by
      unfold Books.record at ht
      dsimp only at ht
      split at ht <;> exact ht
    unfold Books.record
    rcases terminate_cases hs with ⟨hf, rfl⟩ | ⟨i, hf, hcase⟩
    · simp only [hf, Option.bind_none]
      exact h
    · obtain ⟨hpid, hcount, hpick⟩ := hok i hf
      obtain ⟨hi, hdead⟩ := findProcess_spec hf
      have hlive : b.state.Live i := ⟨by rwa [hi], hdead⟩
      obtain ⟨n, hn, -⟩ := h.occupied i hlive.1
      simp only [hf, Option.bind_some, hn]
      rcases hcase with ⟨c, hc, hcp, hsch⟩ | ⟨hno, rfl⟩
      · obtain ⟨-, hpicks, hstate⟩ := vacated_effect b.state i
        have h1 := h.retire hlive hn hcount hticks (o := none) nofun
        refine h1.dispatch (fun x hx => ?_) hsch
        dsimp only at hx ⊢
        rw [hpicks] at hx
        obtain ⟨hxi, hxd⟩ := hpick ⟨c, hc, hcp⟩ x hx
        rw [hstate, if_neg hxi]
        exact hxd
      · have hcur : (retire b.state i).current = b.state.current :=
          (retire_effect b.state i).1.current
        have h1 := h.retire hlive hn hcount hticks (o := (retire b.state i).current) fun c hc => by
          rw [hcur] at hc
          exact ⟨fun he => hno c hc (he ▸ hi), hc⟩
        exact h1
  | yield => exact h.quiet (yield_quiet h.names hs) (yield_kept h.current hok hs)
  | tick =>
    have hs : tick b.state = some s' := hs
    unfold Books.record at ht ⊢
    cases hc : b.state.current with
    | none =>
      rcases tick_cases hs with ⟨-, rfl⟩ | ⟨c, -, hcur, -⟩
      · have h1 : Balanced { b with
            state := { b.state with systemTicks := b.state.systemTicks + 1 } } :=
          h.quiet ⟨fun _ => rfl, rfl, rfl, h.names.links, h.names.current⟩
            ⟨fun _ => rfl, fun _ => Iff.rfl, h.current⟩
        simp only [if_pos]
        exact ⟨⟨h1.conserved.time, h1.conserved.completed⟩, Nat.le_succ_of_le h1.charged, h1.names,
          h1.current, h1.occupied, h1.distinct, h1.old, h1.ended⟩
      · cases hcur.symm.trans hc
    | some c =>
      simp only [reduceCtorEq, if_false]
      have h1 := h.charge hc ht
      have hch := charged_effect b.state c
      have hpid : ∀ p, ((b.state.charged c).pcb p).pid = (b.state.pcb p).pid := hch.pid
      refine h1.quiet ?_ ?_
      · simp only [hpid]
        exact tick_quiet h.names hc hs
      · have hk : Kept b.state s' := tick_kept h.current hok hs
        exact ⟨fun p => (hk.pid p).trans (hpid p).symm,
          fun p => (hk.dead p).trans (by rw [hch.state]), hk.current⟩
  | schedule => exact h.dispatch hok hs

theorem record_ticks (b : Books) (op : Op) (s : State) : b.ticks ≤ (b.record op s).ticks := by
  cases op with
  | create name priority =>
    unfold Books.record
    dsimp only
    cases findFreePcb b.state with
    | none => exact Nat.le_refl _
    | some p => exact Nat.le_refl _
  | terminate pid =>
    unfold Books.record
    dsimp only
    cases (findProcess b.state pid).bind b.occupant with
    | none => exact Nat.le_refl _
    | some n => exact Nat.le_refl _
  | tick => exact Nat.le_succ _
  | _ => exact Nat.le_refl _

/-- **CPU time is conserved** in every run of less than `2 ^ 32` ticks that keeps to the condition. -/
theorem time_conserved {b : Books} (hrun : Reaches BookedStep BooksOk (.init config) b)
    (ht : b.ticks < 2 ^ 32) : Conserved b := by
  have hbal := hrun.invariant (I := fun b => b.ticks < 2 ^ 32 → Balanced b)
    (fun _ => .init config) fun b op b' hb hok hs ht => by
      have hle : b.ticks ≤ b'.ticks := by
        obtain ⟨s', -, rfl⟩ := Option.map_eq_some_iff.mp hs
        exact record_ticks b op s'
      exact step_balanced (hb (Nat.lt_of_le_of_lt hle ht)) hok ht hs
  exact (hbal ht).conserved

theorem time_conserved_run : ∃ b : Books, b.charged = 3 ∧ b.ended.card = 1 ∧
    b.state.stats.totalRuntime = 2 ∧ b.ticks < 2 ^ 32 ∧ Conserved b := by
  have hx : (exec stepBooked (fun b op => decide (BooksOk b op)) (.init ⟨.fifo, 10, 0, 0, 0⟩)
      [.create [] 0, .tick, .schedule, .tick, .tick, .terminate 1, .create [] 0, .schedule, .tick]).map
      (fun b => (b.charged, b.ended.card, b.state.stats.totalRuntime, b.ticks)) =
      some (3, 1, 2, 4) := by decide +kernel
  obtain ⟨b, hb, hobs⟩ := Option.map_eq_some_iff.mp hx
  simp only [Prod.mk.injEq] at hobs
  obtain ⟨hcharged, hended, hruntime, hticks⟩ := hobs
  have hrun : Reaches BookedStep BooksOk (.init ⟨.fifo, 10, 0, 0, 0⟩) b :=
    reaches_of_exec (fun _ _ h => of_decide_eq_true h) (fun _ _ _ h => h) hb
  have ht : b.ticks < 2 ^ 32 := by
    rw [hticks]
    decide
  exact ⟨b, hcharged, hended, hruntime, ht, time_conserved hrun ht⟩

/-- The pid 0 is that of every slot that was never used. -/
theorem time_not_conserved : ¬ ∀ config (b : Books),
    Reaches BookedStep anyAction (.init config) b → b.ticks < 2 ^ 32 → Conserved b := by
  intro hall
  have hx : (exec stepBooked (fun _ _ => true) (.init ⟨.fifo, 10, 0, 0, 0⟩) [.terminate 0]).map
      (fun b => (b.state.stats.processesCompleted.toNat, b.ended.card, b.ticks)) =
      some (1, 0, 0) := by decide +kernel
  obtain ⟨b, hb, hobs⟩ := Option.map_eq_some_iff.mp hx
  simp only [Prod.mk.injEq] at hobs
  obtain ⟨hcount, hended, hticks⟩ := hobs
  have hrun : Reaches BookedStep anyAction (.init ⟨.fifo, 10, 0, 0, 0⟩) b :=
    reaches_of_exec (fun _ _ _ => trivial) (fun _ _ _ h => h) hb
  have hcons := (hall _ b hrun (by rw [hticks]; decide)).completed
  rw [hcount, hended] at hcons
  cases hcons

end OSCompas.Scheduler
