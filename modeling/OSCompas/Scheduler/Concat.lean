import OSCompas.Scheduler.WellFormed

/-!
# The priority boost concatenates the levels

`scheduler_mlfq_boost_priority` on any four well-formed queues: a node is moved without clearing
its successor, so between two rounds the end of level 0 runs into the level that is emptied.

* `boostWhile`, `boostPriorityWhile` — the loops as they are written, with fuel;
* `FourQueues l qs` — the four levels are the lists `qs`;
* `Concatenated` — what the boost is to leave.

Principal results: `boostWhile_eq`, `boostPriority_moves` and `boost_concatenates`.
-/

set_option autoImplicit false

namespace OSCompas.Scheduler

open Function Intrusive Runs

variable {s s' s₁ : State} {l l' : Links} {qs : Queues} {k : QueueId} {p x : Slot}
  {xs : List Slot} {a : Option Slot} {i j : Fin MAX_PRIORITY_LEVELS} {fuel : Nat}

/-! ## The loops as they are written -/

/-- `while (mlfq.queues[i].count > 0)`. -/
def boostWhile (i : Fin MAX_PRIORITY_LEVELS) : Nat → State → Option State
  | 0, _ => none
  | fuel + 1, s =>
    if (s.links.queue (.level i)).count > 0 then (boostOne s i).bind (boostWhile i fuel) else some s

/-- `scheduler_mlfq_boost_priority` with fuel for every loop. -/
def boostPriorityWhile (fuel : Nat) (s : State) : Option State :=
  (boostWhile 1 fuel s).bind fun s => (boostWhile 2 fuel s).bind (boostWhile 3 fuel)

/-- Every round takes one off the count of its level, whatever the links are, and leaves the others
below the top alone. -/
theorem boostOne_count (hj : j ≠ 0) (h : boostOne s i = some s') :
    (s'.links.queue (.level j)).count =
      if j = i then (s.links.queue (.level j)).count - 1 else (s.links.queue (.level j)).count := by
  obtain ⟨p, l₁, l₂, hd, ha, rfl⟩ := boostOne_cases h
  have htaken := dequeue_count hd (.level j)
  have hadded := append_count ha (.level j)
  rw [if_neg fun he => hj (QueueId.level.inj he)] at hadded
  simpa using hadded.trans htaken

theorem boostLevel_count {n : Nat} (hj : j ≠ 0) (hij : j ≠ i) (h : boostLevel i n s = some s') :
    (s'.links.queue (.level j)).count = (s.links.queue (.level j)).count := by
  induction n generalizing s with
  | zero =>
    cases h
    rfl
  | succ n ih =>
    obtain ⟨s₁, h1, h2⟩ := Option.bind_eq_some_iff.mp h
    rw [ih h2, boostOne_count hj h1, if_neg hij]

/-- **The loop ends**, and it makes as many rounds as the count says. -/
theorem boostWhile_eq (hi : i ≠ 0) (hfuel : (s.links.queue (.level i)).count.toNat < fuel) :
    boostWhile i fuel s = boostLevel i (s.links.queue (.level i)).count.toNat s := by
  induction fuel generalizing s with
  | zero => cases hfuel
  | succ fuel ih =>
    rw [boostWhile]
    by_cases h0 : (s.links.queue (.level i)).count = 0
    · simp [h0, boostLevel]
    · have hpos : (s.links.queue (.level i)).count > 0 := (count_pos_iff _).mpr h0
      have hlt : 0 < (s.links.queue (.level i)).count.toNat := UInt32.lt_iff_toNat_lt.mp hpos
      obtain ⟨n, hn⟩ := Nat.exists_eq_add_one_of_ne_zero (Nat.ne_of_gt hlt)
      rw [if_pos hpos, hn, boostLevel]
      cases hone : boostOne s i with
      | none => rfl
      | some s₁ =>
        have hcount : (s₁.links.queue (.level i)).count.toNat = n := by
          have hle : 1 ≤ (s.links.queue (.level i)).count := by
            rw [UInt32.le_iff_toNat_le, hn]
            exact Nat.le_add_left 1 n
          rw [boostOne_count hi hone, if_pos rfl, UInt32.toNat_sub_of_le _ _ hle, hn]
          rfl
        rw [Option.bind_some, Option.bind_some, ih (by omega), hcount]

/-- The boost is what its loops compute. -/
theorem boostPriorityWhile_eq
    (hfuel : ∀ i, i ≠ 0 → (s.links.queue (.level i)).count.toNat < fuel) :
    boostPriorityWhile fuel s = boostPriority s := by
  unfold boostPriorityWhile boostPriority
  simp only [Option.bind_eq_bind]
  rw [boostWhile_eq (by decide) (hfuel 1 (by decide))]
  cases h1 : boostLevel 1 (s.links.queue (.level 1)).count.toNat s with
  | none => rfl
  | some s₁ =>
    have hc₁ : ∀ i, i ≠ 0 → i ≠ 1 →
        (s₁.links.queue (.level i)).count = (s.links.queue (.level i)).count :=
      fun i hi hi' => boostLevel_count hi hi' h1
    have hlt₂ : (s₁.links.queue (.level 2)).count.toNat < fuel := by
      rw [hc₁ 2 (by decide) (by decide)]
      exact hfuel 2 (by decide)
    rw [Option.bind_some, Option.bind_some, boostWhile_eq (by decide) hlt₂]
    cases h2 : boostLevel 2 (s₁.links.queue (.level 2)).count.toNat s₁ with
    | none => rfl
    | some s₂ =>
      have hlt₃ : (s₂.links.queue (.level 3)).count.toNat < fuel := by
        rw [boostLevel_count (by decide) (by decide) h2, hc₁ 3 (by decide) (by decide)]
        exact hfuel 3 (by decide)
      rw [Option.bind_some, Option.bind_some, boostWhile_eq (by decide) hlt₃]

/-! ## The four levels -/

/-- The level `j` goes to the end of level 0. -/
def moveLevel (qs : Queues) (j : Fin MAX_PRIORITY_LEVELS) : Queues :=
  update (update qs (.level j) []) (.level 0) (qs (.level 0) ++ qs (.level j))

/-- The PCBs after the processes `xs` were moved. -/
def boostedIn (pcb : Slot → Pcb) (xs : List Slot) : Slot → Pcb :=
  fun p => if p ∈ xs then (pcb p).boosted else pcb p

theorem moveLevel_push (hj : j ≠ 0) (hk : qs (.level j) = x :: xs) :
    moveLevel (push (update qs (.level j) xs) (.level 0) x) j = moveLevel qs j := by
  have hne : QueueId.level j ≠ .level 0 := fun he => hj (QueueId.level.inj he)
  funext k
  unfold moveLevel push
  by_cases h0 : k = .level 0
  · subst h0
    simp [hne, hne.symm, hk]
  · by_cases hkj : k = .level j
    · subst hkj
      simp [h0]
    · simp [h0, hkj]

theorem boostedIn_cons (pcb : Slot → Pcb) (hx : x ∉ xs) :
    boostedIn (update pcb x (pcb x).boosted) xs = boostedIn pcb (x :: xs) := by
  funext p
  unfold boostedIn
  by_cases hp : p = x
  · subst hp
    simp [hx]
  · simp [hp]

/-- **The loop at a level**: one round moves its head, and the rest follows. -/
theorem boostLevel_moves (h : Threaded s.links (update noAfter (.level 0) a) qs) (hj : j ≠ 0)
    (ha : qs (.level j) = [] → a = none) : ∃ l,
      boostLevel j (qs (.level j)).length s =
        some { s with links := l, pcb := boostedIn s.pcb (qs (.level j)) } ∧
      Threaded l noAfter (moveLevel qs j) ∧
      (Counted s.links qs → Counted l (moveLevel qs j)) ∧
      ∀ i, i ≠ 0 → i ≠ j → (l.queue (.level i)).count = (s.links.queue (.level i)).count := by
  generalize hxs : qs (.level j) = xs at ha
  induction xs generalizing s qs a with
  | nil =>
    have hself : moveLevel qs j = qs := by
      unfold moveLevel
      rw [hxs, List.append_nil, ← hxs, update_eq_self, update_eq_self]
    have hend : update noAfter (.level 0) a = noAfter := by
      rw [ha rfl]
      exact update_eq_self (.level 0) noAfter
    rw [hself]
    rw [hend] at h
    have hpcb : boostedIn s.pcb [] = s.pcb := funext fun p => if_neg List.not_mem_nil
    refine ⟨s.links, ?_, h, id, fun _ _ _ => rfl⟩
    rw [hpcb]
    rfl
  | cons x xs ih =>
    obtain ⟨l₁, hone, ht, hxout, hcount, hlevel⟩ := boostOne_moves h hj hxs
    have hne : QueueId.level j ≠ .level 0 := fun he => hj (QueueId.level.inj he)
    have hrest : push (update qs (.level j) xs) (.level 0) x (.level j) = xs := by
      simp [push, hne]
    have hx : x ∉ xs := by
      have hx := hxout (.level j)
      rwa [update_self] at hx
    obtain ⟨l, hloop, ht', hcount', hlevel'⟩ := ih (s := { s with
        links := l₁
        pcb := update s.pcb x (s.pcb x).boosted }) ht hrest fun hnil => by rw [hnil]; rfl
    rw [moveLevel_push hj hxs] at ht' hcount'
    refine ⟨l, ?_, ht', fun hc => hcount' (hcount hc), fun i hi hij => ?_⟩
    · rw [List.length_cons, boostLevel, hone, Option.bind_some, hloop, boostedIn_cons _ hx]
    · exact (hlevel' i hi hij).trans (hlevel i hi hij)

/-- The same with the count for the number of rounds. -/
theorem boostCount_moves (h : Threaded s.links noAfter qs) (hc : Counted s.links qs)
    (hj : j ≠ 0) : ∃ l,
      boostLevel j (s.links.queue (.level j)).count.toNat s =
        some { s with links := l, pcb := boostedIn s.pcb (qs (.level j)) } ∧
      Threaded l noAfter (moveLevel qs j) ∧ Counted l (moveLevel qs j) := by
  have hself : update noAfter (.level 0) (none : Option Slot) = noAfter := update_eq_self _ _
  rw [← hself] at h
  obtain ⟨l, hloop, ht, hcount, -⟩ := boostLevel_moves h hj fun _ => rfl
  rw [hc (.level j)]
  exact ⟨l, hloop, ht, hcount hc⟩

/-- All levels end up in level 0. -/
def concat (qs : Queues) : Queues := moveLevel (moveLevel (moveLevel qs 1) 2) 3

/-- **The boost moves the levels 1 to 3**, one after the other. -/
theorem boostPriority_moves (h : Threaded s.links noAfter qs) (hc : Counted s.links qs) : ∃ l,
    boostPriority s = some { s with
      links := l
      pcb := boostedIn (boostedIn (boostedIn s.pcb (qs (.level 1))) (qs (.level 2)))
        (qs (.level 3)) } ∧
    Threaded l noAfter (concat qs) ∧ Counted l (concat qs) := by
  obtain ⟨l₁, h₁, ht₁, hc₁⟩ := boostCount_moves h hc (j := 1) (by decide)
  obtain ⟨l₂, h₂, ht₂, hc₂⟩ := boostCount_moves (s := { s with
    links := l₁
    pcb := boostedIn s.pcb (qs (.level 1)) }) ht₁ hc₁ (j := 2) (by decide)
  obtain ⟨l₃, h₃, ht₃, hc₃⟩ := boostCount_moves (s := { s with
    links := l₂
    pcb := boostedIn (boostedIn s.pcb (qs (.level 1))) (qs (.level 2)) }) ht₂ hc₂
    (j := 3) (by decide)
  refine ⟨l₃, ?_, ht₃, hc₃⟩
  unfold boostPriority
  simp only [Option.bind_eq_bind]
  rw [h₁, Option.bind_some]
  have h₂' := h₂
  rw [show moveLevel qs 1 (.level 2) = qs (.level 2) from rfl] at h₂'
  rw [h₂', Option.bind_some]
  exact h₃

/-! ## The single queue stands apart -/

/-- The links with another `ready_queue`. -/
def Links.withReady (l : Links) (q : ReadyQueue) : Links :=
  { l with queue := update l.queue .ready q }

def State.withReady (s : State) (q : ReadyQueue) : State := { s with links := s.links.withReady q }

variable {q : ReadyQueue}

theorem withReady_queue (l : Links) (q : ReadyQueue) (i : Fin MAX_PRIORITY_LEVELS) :
    (l.withReady q).queue (.level i) = l.queue (.level i) := by
  simp [Links.withReady]

theorem withReady_self (l : Links) : l.withReady (l.queue .ready) = l := by
  unfold Links.withReady
  rw [update_eq_self]

theorem withReady_comm (l : Links) (q r : ReadyQueue) (i : Fin MAX_PRIORITY_LEVELS) :
    update (update l.queue .ready q) (.level i) r = update (update l.queue (.level i) r) .ready q :=
  update_comm (by simp) _ _ _

theorem dequeue_withReady (l : Links) (q : ReadyQueue) (i : Fin MAX_PRIORITY_LEVELS) :
    (l.withReady q).dequeue (.level i) =
      (l.dequeue (.level i)).map fun r => (r.1.withReady q, r.2) := by
  have hq := withReady_queue l q i
  unfold Links.dequeue
  rw [hq]
  dsimp only
  split
  · simp [Links.withReady, withReady_comm]
  · cases (l.queue (.level i)).head with
    | none => rfl
    | some h => simp [Links.withReady, withReady_comm]

theorem append_withReady (l : Links) (q : ReadyQueue) (i : Fin MAX_PRIORITY_LEVELS) (p : Slot) :
    (l.withReady q).append (.level i) p = (l.append (.level i) p).map (·.withReady q) := by
  have hq := withReady_queue l q i
  unfold Links.append
  rw [hq]
  dsimp only
  cases (l.queue (.level i)).head with
  | none => simp [Links.withReady, withReady_comm]
  | some h =>
    cases (l.queue (.level i)).tail with
    | none => rfl
    | some t => simp [Links.withReady, withReady_comm]

theorem boostOne_withReady (s : State) (q : ReadyQueue) (i : Fin MAX_PRIORITY_LEVELS) :
    boostOne (s.withReady q) i = (boostOne s i).map (·.withReady q) := by
  have hd : (s.withReady q).links.dequeue (.level i) = _ := dequeue_withReady s.links q i
  unfold boostOne
  rw [hd]
  simp only [Option.bind_eq_bind]
  cases s.links.dequeue (.level i) with
  | none => rfl
  | some r =>
    obtain ⟨l, o⟩ := r
    cases o with
    | none => rfl
    | some p =>
      simp only [Option.map_some, Option.bind_some, append_withReady]
      cases l.append (.level 0) p with
      | none => rfl
      | some l' => rfl

theorem boostLevel_withReady (q : ReadyQueue) (i : Fin MAX_PRIORITY_LEVELS) (n : Nat) (s : State) :
    boostLevel i n (s.withReady q) = (boostLevel i n s).map (·.withReady q) := by
  induction n generalizing s with
  | zero => rfl
  | succ n ih =>
    rw [boostLevel, boostLevel, boostOne_withReady]
    cases boostOne s i with
    | none => rfl
    | some s₁ => exact ih s₁

theorem boostPriority_withReady (s : State) (q : ReadyQueue) :
    boostPriority (s.withReady q) = (boostPriority s).map (·.withReady q) := by
  have hlevel : ∀ (s : State) i, boostLevel i ((s.withReady q).links.queue (.level i)).count.toNat
      (s.withReady q) =
      (boostLevel i (s.links.queue (.level i)).count.toNat s).map (·.withReady q) := by
    intro s i
    have hq : (s.withReady q).links.queue (.level i) = _ := withReady_queue s.links q i
    rw [hq]
    exact boostLevel_withReady q i _ s
  unfold boostPriority
  simp only [Option.bind_eq_bind]
  rw [hlevel]
  cases boostLevel 1 (s.links.queue (.level 1)).count.toNat s with
  | none => rfl
  | some s₁ =>
    rw [Option.map_some, Option.bind_some, Option.bind_some, hlevel]
    cases boostLevel 2 (s₁.links.queue (.level 2)).count.toNat s₁ with
    | none => rfl
    | some s₂ => exact hlevel s₂ 3

/-! ## The property -/

/-- The four levels are doubly linked acyclic lists with the right counts, and share no process. -/
structure FourQueues (l : Links) (qs : Fin MAX_PRIORITY_LEVELS → List Slot) : Prop where
  queue : ∀ i, IsQueue l.next l.prev none (l.queue (.level i)).head (l.queue (.level i)).tail (qs i)
  count : ∀ i, (l.queue (.level i)).count.toNat = (qs i).length
  disjoint : ∀ p i j, p ∈ qs i → p ∈ qs j → i = j

/-- Level 0 is the old levels in order, the others are empty, the processes moved have priority 0,
no time in the queue and a promotion more, and nothing else but the links changed. -/
structure Concatenated (s s' : State) (qs : Fin MAX_PRIORITY_LEVELS → List Slot) : Prop where
  queues : FourQueues s'.links fun i => if i = 0 then qs 0 ++ qs 1 ++ qs 2 ++ qs 3 else []
  pcb : ∀ p, s'.pcb p = if ∃ i, i ≠ 0 ∧ p ∈ qs i then { s.pcb p with
      priority := 0
      timeInQueue := 0
      promotions := (s.pcb p).promotions + 1 }
    else s.pcb p
  ready : s'.links.queue .ready = s.links.queue .ready
  rest : s' = { s with links := s'.links, pcb := s'.pcb }

variable {zs : Fin MAX_PRIORITY_LEVELS → List Slot}

/-- The levels beside an empty `ready_queue`. -/
def beside (zs : Fin MAX_PRIORITY_LEVELS → List Slot) : Queues
  | .ready => []
  | .level i => zs i

theorem FourQueues.threaded (h : FourQueues l zs) :
    Threaded (l.withReady ⟨none, none, 0⟩) noAfter (beside zs) ∧
      Counted (l.withReady ⟨none, none, 0⟩) (beside zs) := by
  refine ⟨⟨fun k => ?_, fun p k k' hk hk' => ?_⟩, fun k => ?_⟩
  · cases k with
    | ready => exact isQueue_nil.mpr ⟨rfl, rfl⟩
    | level i =>
      rw [withReady_queue]
      exact h.queue i
  · cases k with
    | ready => cases hk
    | level i =>
      cases k' with
      | ready => cases hk'
      | level j => rw [h.disjoint p i j hk hk']
  · cases k with
    | ready => rfl
    | level i =>
      rw [withReady_queue]
      exact h.count i

theorem FourQueues.of_threaded (h : Threaded (l.withReady q) noAfter qs)
    (hc : Counted (l.withReady q) qs) : FourQueues l fun i => qs (.level i) := by
  refine ⟨fun i => ?_, fun i => ?_, fun p i j hi hj => ?_⟩
  · have hq := h.queue (.level i)
    rwa [withReady_queue] at hq
  · have hk := hc (.level i)
    rwa [withReady_queue] at hk
  · exact QueueId.level.inj (h.disjoint p _ _ hi hj)

theorem concat_beside (zs : Fin MAX_PRIORITY_LEVELS → List Slot) (i : Fin MAX_PRIORITY_LEVELS) :
    concat (beside zs) (.level i) = if i = 0 then zs 0 ++ zs 1 ++ zs 2 ++ zs 3 else [] := by
  match i with
  | 0 => rfl
  | 1 => rfl
  | 2 => rfl
  | 3 => rfl

/-- A process is in one level only, so it is moved once. -/
theorem FourQueues.boosted (h : FourQueues l zs) (pcb : Slot → Pcb) (p : Slot) :
    boostedIn (boostedIn (boostedIn pcb (zs 1)) (zs 2)) (zs 3) p =
      if ∃ i, i ≠ 0 ∧ p ∈ zs i then (pcb p).boosted else pcb p := by
  have hlow : (∃ i, i ≠ 0 ∧ p ∈ zs i) ↔ p ∈ zs 1 ∨ p ∈ zs 2 ∨ p ∈ zs 3 := by
    constructor
    · rintro ⟨i, hi, hp⟩
      match i, hi, hp with
      | 1, _, hp => exact .inl hp
      | 2, _, hp => exact .inr (.inl hp)
      | 3, _, hp => exact .inr (.inr hp)
    · rintro (hp | hp | hp)
      · exact ⟨1, by decide, hp⟩
      · exact ⟨2, by decide, hp⟩
      · exact ⟨3, by decide, hp⟩
  have hno : ∀ i j, i ≠ j → p ∈ zs i → p ∉ zs j := fun i j hij hi hj =>
    hij (h.disjoint p i j hi hj)
  unfold boostedIn
  simp only [hlow]
  by_cases h1 : p ∈ zs 1
  · simp [h1, hno 1 2 (by decide) h1, hno 1 3 (by decide) h1]
  · by_cases h2 : p ∈ zs 2
    · simp [h1, h2, hno 2 3 (by decide) h2]
    · simp [h1, h2]

/-- The queues of a state that was reached, checked. -/
theorem FourQueues.of_shape (h : Shape s qs) (hc : Counted s.links qs) :
    FourQueues s.links fun i => s.list (.level i) := by
  rw [h.list]
  exact ⟨fun i => h.threaded.queue _, fun i => hc _,
    fun p i j hi hj => QueueId.level.inj (h.threaded.disjoint p _ _ hi hj)⟩

/-- **The boost concatenates the queues**: it ends, as the loops are written too. -/
theorem boost_concatenates (h : FourQueues s.links zs) :
    ∃ s', boostPriority s = some s' ∧ (∀ fuel, 64 < fuel → boostPriorityWhile fuel s = some s') ∧
      Concatenated s s' zs := by
  obtain ⟨ht, hc⟩ := h.threaded
  obtain ⟨l, hb, ht', hc'⟩ := boostPriority_moves (s := s.withReady ⟨none, none, 0⟩) ht hc
  have hself : s.withReady (s.links.queue .ready) = s := by
    unfold State.withReady
    rw [withReady_self]
  rw [boostPriority_withReady] at hb
  obtain ⟨s', hs', he⟩ := Option.map_eq_some_iff.mp hb
  have hlinks : s'.links.withReady ⟨none, none, 0⟩ = l := congrArg State.links he
  rw [← hlinks] at ht' hc'
  refine ⟨s', hs', fun fuel hfuel => ?_, ?_, fun p => ?_, ?_, ?_⟩
  · rw [boostPriorityWhile_eq fun i _ => ?_, hs']
    rw [h.count i]
    exact lt_of_le_of_lt (length_le_of_nodup (h.queue i).nodup) hfuel
  · have hq := FourQueues.of_threaded ht' hc'
    have hlists : (fun i => concat (beside zs) (.level i)) = _ := funext (concat_beside zs)
    rwa [hlists] at hq
  · have hpcb : s'.pcb p = _ := congrFun (congrArg State.pcb he) p
    exact hpcb.trans (h.boosted s.pcb p)
  · have hready := boostPriority_withReady s (s.links.queue .ready)
    rw [hself, hs', Option.map_some] at hready
    have hlinks' : s'.links.queue .ready = _ :=
      congrArg (fun s => s.links.queue .ready) (Option.some.inj hready)
    rw [hlinks']
    exact update_self QueueId.ready (s.links.queue .ready) s'.links.queue
  · exact congrArg (fun t : State => { t with links := s'.links, pcb := s'.pcb }) he

theorem boost_concatenates_four : ∃ s, (List.finRange 4).map (fun i => s.list (.level i)) =
    [[0], [1, 3], [], [2]] ∧ ∃ s', boostPriority s = some s' ∧
      (∀ fuel, 64 < fuel → boostPriorityWhile fuel s = some s') ∧
      Concatenated s s' fun i => s.list (.level i) := by
  have hx : (exec step (fun s op => decide (ShapeGuard s op))
      (schedulerInit ⟨.mlfq, 10, 1, 4, 100⟩)
      [.create [] 0, .create [] 1, .create [] 9, .create [] 1]).map
      (fun s => (List.finRange 4).map fun i => s.list (.level i)) =
      some [[0], [1, 3], [], [2]] := by decide +kernel
  obtain ⟨s, hs, hlists⟩ := Option.map_eq_some_iff.mp hx
  obtain ⟨qs, hsh, hc⟩ := run_counted (run_of_exec hs)
  exact ⟨s, hlists, boost_concatenates (FourQueues.of_shape hsh hc)⟩

end OSCompas.Scheduler
