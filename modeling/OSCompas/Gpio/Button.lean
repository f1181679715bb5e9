import Mathlib
import OSCompas.Lib.Progress

/-!
# Button events (`lab5-1-raspberry-gpio-driver/examples/gpio_input.c`)

The interrupt handler counts the edges of the button; a read waits until the count is not zero,
samples the button, copies the sample out and takes one off the count. The readers, the handler and
signals interleave between any two accesses.

* `ReaderPc`, `State.step` — `gpio_read_extended` access by access, and the handler;
* `gpioPoll` — what `gpio_poll` reports.

`wait_event_interruptible` also ends when a signal arrives; its result is not looked at.  The count
is an `atomic_t`, which goes around at 32 bits.

Principal results: `count_eq` (the count is the number of edges less the number of reads, as an
`int`), `taken_le` (a single reader whose waits no signal ends never reads more events than there
were), `taken_unbounded` (two readers read any number of events from one) and `taken_signal` (one
reader reads 2^32 events from none, after one signal).
-/

set_option autoImplicit false

namespace OSCompas.Gpio.Button

open Function Progress

variable {ι : Type} [DecidableEq ι]

/-- Where a reader is in `gpio_read_extended`. -/
inductive ReaderPc where
  | idle
  | check (nonblock : Bool)
  /-- In `wait_event_interruptible`. -/
  | wait
  | sample
  | copy (state : Char)
  | dec
  deriving DecidableEq

/-- What a read returns. -/
inductive Result where
  | eagain
  | efault
  | byte (state : Char)
  deriving DecidableEq

/-- `button_event_count`, the level of the button and the readers; `events`, `taken` and `woken`
count the interrupts, the reads that returned a byte, and the waits that a signal ended. -/
structure State (ι : Type) where
  count : Int32
  level : Bool
  readers : ι → ReaderPc
  results : ι → List Result
  events : Nat
  taken : Nat
  woken : Nat

/-- What can happen next. -/
inductive Action (ι : Type) where
  /-- An edge of the button, to the given level. -/
  | edge (level : Bool)
  | read (i : ι) (nonblock : Bool)
  /-- The next access of reader `i`; a copy to it succeeds or not. -/
  | run (i : ι) (copied : Bool)
  | signal (i : ι)

/-- The next access of a reader: where it goes on, and what it returns if it does. -/
def State.readStep (s : State ι) (copied : Bool) : ReaderPc → ReaderPc × Option Result
  | .idle => (.idle, none)
  | .check nonblock =>
    if s.count = 0 then if nonblock then (.idle, some .eagain) else (.wait, none)
    else (.sample, none)
  | .wait => (if s.count = 0 then .wait else .sample, none)
  | .sample => (.copy (if s.level then '1' else '0'), none)
  | .copy state => if copied then (.dec, some (.byte state)) else (.idle, some .efault)
  | .dec => (.idle, none)

def State.step (s : State ι) : Action ι → Option (State ι)
  | .edge level => some { s with count := s.count + 1, level := level, events := s.events + 1 }
  | .read i nonblock =>
    if s.readers i = .idle then some { s with readers := update s.readers i (.check nonblock) }
    else none
  | .run i copied =>
    let (pc, result?) := s.readStep copied (s.readers i)
    let s' := { s with
      readers := update s.readers i pc
      results := update s.results i (s.results i ++ result?.toList) }
    some (if s.readers i = .dec then { s' with count := s.count - 1, taken := s.taken + 1 } else s')
  | .signal i =>
    if s.readers i = .wait ∧ s.count = 0 then
      some { s with readers := update s.readers i .sample, woken := s.woken + 1 }
    else some s

/-- `gpio_poll`: whether there is something to read. -/
def gpioPoll (s : State ι) : Bool := 0 < s.count

def State.initial : State ι := ⟨0, false, fun _ => .idle, fun _ => [], 0, 0, 0⟩

variable {s t : State ι} {a : Action ι} {as : List (Action ι)} {i : ι} {n : Nat}

/-! ## The count -/

/-- The count is the number of edges less the number of reads, as an `int`. -/
def State.Counted (s : State ι) : Prop := s.count = Int32.ofInt (s.events - s.taken)

/-- What a step does to the numbers. -/
theorem State.Counted.step (hs : s.Counted) (h : s.step a = some t) : t.Counted := by
  cases a with
  | edge level =>
    cases h
    have hone : ((s.events + 1 : Nat) : Int) - s.taken = (s.events - s.taken : Int) + 1 := by omega
    unfold State.Counted
    rw [hone, Int32.ofInt_add, ← hs]
    rfl
  | read i nonblock =>
    simp only [State.step] at h
    split at h <;> cases h
    exact hs
  | run i copied =>
    simp only [State.step, Option.some.injEq] at h
    subst h
    split
    · have hone : (s.events : Int) - (s.taken + 1 : Nat) = (s.events - s.taken : Int) - 1 := by
        omega
      unfold State.Counted
      rw [hone, Int32.ofInt_sub, ← hs]
      rfl
    · exact hs
  | signal i =>
    simp only [State.step] at h
    split at h <;> cases h <;> exact hs

theorem State.Counted.run (hs : s.Counted) (h : as.foldlM State.step s = some t) : t.Counted :=
  invariant_foldlM (I := State.Counted) (fun _ _ _ hs ht => hs.step ht) hs h

/-- **The count is the number of edges less the number of reads**, whatever the readers do. -/
theorem count_eq (h : as.foldlM State.step .initial = some s) : s.Counted := by
  have h0 : (State.initial : State ι).Counted := by
    unfold State.Counted
    rfl
  exact h0.run h

omit [DecidableEq ι] in
theorem State.Counted.toInt (h : s.Counted) :
    s.count.toInt = ((s.events : Int) - s.taken).bmod (2 ^ 32) := by
  rw [h]
  exact Int32.toInt_ofInt

omit [DecidableEq ι] in
theorem State.Counted.eq_zero_iff (h : s.Counted) :
    s.count = 0 ↔ (2 ^ 32 : Int) ∣ (s.events : Int) - s.taken := by
  rw [← Int32.toInt_inj, h.toInt, Int32.toInt_zero]
  exact Int.dvd_iff_bmod_eq_zero.symm

omit [DecidableEq ι] in
/-- Within 2^31 of each other, the two numbers differ by the count. -/
theorem State.Counted.toInt_of_le (h : s.Counted) (hlo : -2 ^ 31 ≤ (s.events : Int) - s.taken)
    (hhi : (s.events : Int) - s.taken < 2 ^ 31) : s.count.toInt = s.events - s.taken := by
  rw [h]
  exact Int32.toInt_ofInt_of_le hlo hhi

/-- **`gpio_poll` reports input exactly when the number of edges that were not read is positive as
an `int`**: as long as it is one, exactly when there are such edges. -/
theorem gpioPoll_iff (h : as.foldlM State.step .initial = some s) :
    (gpioPoll s = true ↔ 0 < ((s.events : Int) - s.taken).bmod (2 ^ 32)) ∧
      (-2 ^ 31 ≤ (s.events : Int) - s.taken → (s.events : Int) - s.taken < 2 ^ 31 →
        (gpioPoll s = true ↔ s.taken < s.events)) := by
  have hc := count_eq h
  have hpoll : gpioPoll s = true ↔ 0 < s.count.toInt := by
    rw [gpioPoll, decide_eq_true_eq, Int32.lt_iff_toInt_lt, Int32.toInt_zero]
  constructor
  · rw [hpoll, hc.toInt]
  · intro hlo hhi
    rw [hpoll, hc.toInt_of_le hlo hhi]
    omega

/-- Press and release. -/
theorem gpioPoll_iff_edge : ∃ s : State Unit,
    [.edge true, .edge false].foldlM State.step .initial = some s ∧ s.events = 2 ∧
      (gpioPoll s = true ↔ s.taken < s.events) := by
  obtain ⟨s, hs, he, ht⟩ : ∃ s : State Unit,
      [.edge true, .edge false].foldlM State.step .initial = some s ∧ s.events = 2 ∧
        s.taken = 0 := ⟨_, rfl, rfl, rfl⟩
  exact ⟨s, hs, he, (gpioPoll_iff hs).2 (by omega) (by omega)⟩

/-! ## One reader -/

/-- The reader has passed its test of the count. -/
def ReaderPc.passed : ReaderPc → Bool
  | .idle | .check _ | .wait => false
  | .sample | .copy _ | .dec => true

/-- Only reader `i` reads, and unless a signal ended a wait, it has an event for the read in
progress. -/
structure Single (i : ι) (s : State ι) : Prop where
  others : ∀ j, j ≠ i → s.readers j = .idle
  count : s.Counted
  enough : s.woken = 0 → s.taken + (s.readers i).passed.toNat ≤ s.events

/-- The action, if it is a reader's, is one of reader `i`. -/
def Action.By (i : ι) : Action ι → Prop
  | .edge _ => True
  | .read j _ | .run j _ | .signal j => j = i

omit [DecidableEq ι] in
/-- Passing the test of the count takes an event, unless there are more reads than edges. -/
theorem Single.readStep (h : Single i s) (copied : Bool) (hw : s.woken = 0) :
    s.taken + (if s.readers i = .dec then 1 else 0) +
      (s.readStep copied (s.readers i)).1.passed.toNat ≤ s.events := by
  have hpass : s.taken ≤ s.events → s.count ≠ 0 → s.taken + 1 ≤ s.events := by
    intro hle h0
    refine Nat.succ_le_of_lt (Nat.lt_of_le_of_ne hle fun heq => h0 ?_)
    rw [h.count.eq_zero_iff, heq, Int.sub_self]
    exact Int.dvd_zero _
  have he := h.enough hw
  cases hpc : s.readers i with
  | check nonblock =>
    simp only [hpc, ReaderPc.passed, Bool.toNat_false] at he
    by_cases h0 : s.count = 0
    · cases nonblock <;> simpa [State.readStep, ReaderPc.passed, h0] using he
    · simp only [State.readStep, h0, if_false, ReaderPc.passed, Bool.toNat_true, reduceCtorEq]
      exact hpass he h0
  | wait =>
    simp only [hpc, ReaderPc.passed, Bool.toNat_false] at he
    by_cases h0 : s.count = 0
    · simpa [State.readStep, ReaderPc.passed, h0] using he
    · simp only [State.readStep, h0, if_false, ReaderPc.passed, Bool.toNat_true, reduceCtorEq]
      exact hpass he h0
  | copy state =>
    simp only [hpc, ReaderPc.passed, Bool.toNat_true] at he
    cases copied with
    | false => simpa [State.readStep, ReaderPc.passed] using Nat.le_of_succ_le he
    | true => simpa [State.readStep, ReaderPc.passed] using he
  | idle | sample =>
    simp only [hpc, ReaderPc.passed, Bool.toNat_false, Bool.toNat_true] at he
    simpa [State.readStep, ReaderPc.passed] using he
  | dec =>
    simp only [hpc, ReaderPc.passed, Bool.toNat_true] at he
    simpa [State.readStep, ReaderPc.passed] using he

theorem Single.step (h : Single i s) (ha : a.By i) (ht : s.step a = some t) : Single i t := by
  have hcount := h.count.step ht
  cases a with
  | edge level =>
    cases ht
    exact ⟨h.others, hcount, fun hw => Nat.le_succ_of_le (h.enough hw)⟩
  | read j nonblock =>
    obtain rfl : j = i := ha
    simp only [State.step] at ht
    split at ht <;> cases ht
    rename_i hidle
    refine ⟨fun k hk => ?_, hcount, fun hw => ?_⟩
    · simpa [hk] using h.others k hk
    · simpa [hidle, ReaderPc.passed] using h.enough hw
  | run j copied =>
    obtain rfl : j = i := ha
    have hstep (hw : s.woken = 0) := h.readStep copied hw
    simp only [State.step, Option.some.injEq] at ht
    subst ht
    refine ⟨fun k hk => ?_, hcount, fun hw => ?_⟩
    · split <;> simpa [hk] using h.others k hk
    · split at hw
      · rename_i hdec
        simpa [hdec] using hstep hw
      · rename_i hdec
        simpa [hdec] using hstep hw
  | signal j =>
    obtain rfl : j = i := ha
    simp only [State.step] at ht
    split at ht <;> cases ht
    · exact ⟨fun k hk => by simpa [hk] using h.others k hk, hcount, nofun⟩
    · exact h

/-- **A single reader whose waits no signal ends reads each event at most once**, and as long as
fewer than 2^31 edges wait for it, the count is not negative. -/
theorem taken_le (h : as.foldlM State.step .initial = some s) (hby : ∀ a ∈ as, a.By i)
    (hw : s.woken = 0) :
    s.taken ≤ s.events ∧ (s.events < s.taken + 2 ^ 31 → 0 ≤ s.count) := by
  have h0 : Single i (.initial : State ι) := ⟨fun _ _ => rfl, rfl, fun _ => Nat.le_refl 0⟩
  have hs : Single i s := invariant_foldlM_of (fun _ _ _ => Single.step) hby h0 h
  have hle := hs.enough hw
  refine ⟨by omega, fun hlt => ?_⟩
  rw [Int32.le_iff_toInt_le, Int32.toInt_zero, hs.count.toInt_of_le (by omega) (by omega)]
  omega

/-- Press, release, and one read. -/
def pressRead : List (Action Unit) :=
  .edge true :: .edge false :: .read () false :: List.replicate 4 (.run () true)

theorem taken_le_press : ∃ s : State Unit, pressRead.foldlM State.step .initial = some s ∧
    s.events = 2 ∧ s.taken = 1 ∧ s.woken = 0 ∧
      (s.taken ≤ s.events ∧ (s.events < s.taken + 2 ^ 31 → 0 ≤ s.count)) := by
  obtain ⟨s, hs, he, ht, hw⟩ : ∃ s : State Unit,
      pressRead.foldlM State.step .initial = some s ∧ s.events = 2 ∧ s.taken = 1 ∧
        s.woken = 0 := by
    simp [pressRead, State.step, State.readStep, State.initial]
  refine ⟨s, hs, he, ht, hw, taken_le (i := ()) hs ?_ hw⟩
  simp [pressRead, Action.By]

/-! ## Reads without events -/

/-- One whole read. -/
def readAll (i : ι) : List (Action ι) := .read i false :: List.replicate 4 (.run i true)

/-- A read from a count that is not zero does not wait. -/
theorem readAll_run (hi : s.readers i = .idle) (hc : s.count ≠ 0) : ∃ t,
    (readAll i).foldlM State.step s = some t ∧ t.readers i = .idle ∧ t.events = s.events ∧
      t.taken = s.taken + 1 ∧ t.woken = s.woken := by
  simp [readAll, State.step, State.readStep, hi, hc]

omit [DecidableEq ι] in
theorem mem_readAll_by (n : Nat) : ∀ a ∈ (List.replicate n (readAll i)).flatten, a.By i := by
  intro a ha
  obtain ⟨l, hl, ha⟩ := List.mem_flatten.mp ha
  obtain rfl := List.eq_of_mem_replicate hl
  obtain rfl | ha := List.mem_cons.mp ha
  · rfl
  · obtain rfl := List.eq_of_mem_replicate ha
    rfl

section Two

variable {j : ι}

/-- Both readers have read, `n` times in all, from one edge. -/
structure Both (i j : ι) (n : Nat) (s : State ι) : Prop where
  counted : s.Counted
  idle : s.readers i = .idle ∧ s.readers j = .idle
  events : s.events = 1
  woken : s.woken = 0
  taken : s.taken = n

omit [DecidableEq ι] in
theorem Both.count_eq_zero_iff (h : Both i j n s) :
    s.count = 0 ↔ (2 ^ 32 : Int) ∣ 1 - (n : Int) := by
  rw [h.counted.eq_zero_iff, h.events, h.taken]
  rfl

/-- One of the two reads, from a count that is not zero. -/
theorem Both.read (hij : i ≠ j) (h : Both i j n s) (hc : s.count ≠ 0) :
    ∃ (as : List (Action ι)) (t : State ι),
      as.foldlM State.step s = some t ∧ Both i j (n + 1) t := by
  obtain ⟨t, ht, hti, htj, hte, htt, htw⟩ : ∃ t, (readAll i).foldlM State.step s = some t ∧
      t.readers i = .idle ∧ t.readers j = .idle ∧ t.events = s.events ∧ t.taken = s.taken + 1 ∧
        t.woken = s.woken := by
    simp [readAll, State.step, State.readStep, h.idle.1, h.idle.2, hc, hij.symm]
  exact ⟨_, t, ht, h.counted.run ht, ⟨hti, htj⟩, hte.trans h.events, htw.trans h.woken,
    htt.trans (congrArg (· + 1) h.taken)⟩

/-- Both pass the test before one of them counts. -/
def readBoth (i j : ι) : List (Action ι) :=
  .read i false :: .read j false :: .run i true :: .run j true ::
    (List.replicate 3 (.run i true) ++ List.replicate 3 (.run j true))

theorem Both.readBoth (hij : i ≠ j) (h : Both i j n s) (hc : s.count ≠ 0) :
    ∃ (as : List (Action ι)) (t : State ι),
      as.foldlM State.step s = some t ∧ Both i j (n + 2) t := by
  obtain ⟨t, ht, hti, htj, hte, htt, htw⟩ : ∃ t,
      (Button.readBoth i j).foldlM State.step s = some t ∧ t.readers i = .idle ∧
        t.readers j = .idle ∧ t.events = s.events ∧ t.taken = s.taken + 2 ∧
          t.woken = s.woken := by
    simp [Button.readBoth, State.step, State.readStep, h.idle.1, h.idle.2, hc, hij, hij.symm]
  exact ⟨_, t, ht, h.counted.run ht, ⟨hti, htj⟩, hte.trans h.events, htw.trans h.woken,
    htt.trans (congrArg (· + 2) h.taken)⟩

/-- Where the next read would find the count zero, the last two skip it. -/
theorem both_run (hij : i ≠ j) (n : Nat) :
    (∃ (as : List (Action ι)) (s : State ι),
      as.foldlM State.step .initial = some s ∧ Both i j n s) ∧
    ∃ (as : List (Action ι)) (s : State ι),
      as.foldlM State.step .initial = some s ∧ Both i j (n + 1) s := by
  induction n with
  | zero =>
    obtain ⟨s, hs, h⟩ : ∃ s, [.edge true].foldlM State.step (.initial : State ι) = some s ∧
        Both i j 0 s := ⟨_, rfl, rfl, ⟨rfl, rfl⟩, rfl, rfl, rfl⟩
    have hc : s.count ≠ 0 := by
      rw [ne_eq, h.count_eq_zero_iff]
      omega
    obtain ⟨as, t, ht, h'⟩ := h.read hij hc
    exact ⟨⟨_, s, hs, h⟩, _, t, foldlM_append_some.mpr ⟨s, hs, ht⟩, h'⟩
  | succ n ih =>
    obtain ⟨⟨as, s, hs, h⟩, bs, t, ht, h'⟩ := ih
    refine ⟨⟨bs, t, ht, h'⟩, ?_⟩
    by_cases hc : t.count = 0
    · have hs0 : s.count ≠ 0 := by
        rw [ne_eq, h.count_eq_zero_iff]
        rw [h'.count_eq_zero_iff] at hc
        omega
      obtain ⟨cs, u, hu, h''⟩ := h.readBoth hij hs0
      exact ⟨_, u, foldlM_append_some.mpr ⟨s, hs, hu⟩, h''⟩
    · obtain ⟨cs, u, hu, h''⟩ := h'.read hij hc
      exact ⟨_, u, foldlM_append_some.mpr ⟨t, ht, hu⟩, h''⟩

/-- **Two readers can read one edge any number of times**: both pass the test for it, the count goes
past zero, and it does so again each time it has come around. -/
theorem taken_unbounded (hij : i ≠ j) (n : Nat) : ∃ (as : List (Action ι)) (s : State ι),
    as.foldlM State.step .initial = some s ∧ s.events = 1 ∧ s.woken = 0 ∧ s.taken = n + 2 := by
  obtain ⟨as, s, hs, h⟩ := (both_run hij (n + 1)).2
  exact ⟨as, s, hs, h.events, h.woken, h.taken⟩

/-- As many reads of one edge as take the count once around. -/
theorem taken_unbounded_around : ∃ (as : List (Action Bool)) (s : State Bool),
    as.foldlM State.step .initial = some s ∧ s.events = 1 ∧ s.woken = 0 ∧
      s.taken = 2 ^ 32 + 2 :=
  taken_unbounded Bool.false_ne_true (2 ^ 32)

end Two

/-- While the count has not come around to zero, a reader is never stopped. -/
theorem reads_run (hs : s.Counted) (hi : s.readers i = .idle) (he : s.events < s.taken) (n : Nat)
    (hn : s.taken + n ≤ s.events + 2 ^ 32) : ∃ t,
    (List.replicate n (readAll i)).flatten.foldlM State.step s = some t ∧ t.Counted ∧
      t.readers i = .idle ∧ t.events = s.events ∧ t.taken = s.taken + n ∧ t.woken = s.woken := by
  induction n with
  | zero => exact ⟨s, rfl, hs, hi, rfl, rfl, rfl⟩
  | succ n ih =>
    obtain ⟨t, ht, hcount, hti, hte, htt, htw⟩ := ih (by omega)
    have hc : t.count ≠ 0 := by
      rw [ne_eq, hcount.eq_zero_iff]
      omega
    obtain ⟨u, hu, hui, hue, hut, huw⟩ := readAll_run hti hc
    refine ⟨u, ?_, hcount.run hu, hui, hue.trans hte, by omega, huw.trans htw⟩
    rw [List.replicate_succ', List.flatten_append, List.flatten_singleton]
    exact foldlM_append_some.mpr ⟨t, ht, hu⟩

/-- **After one signal a single reader reads up to 2^32 events from none.** -/
theorem taken_signal (i : ι) {n : Nat} (hn : n < 2 ^ 32) : ∃ (as : List (Action ι)) (s : State ι),
    as.foldlM State.step .initial = some s ∧ (∀ a ∈ as, a.By i) ∧ s.events = 0 ∧ s.woken = 1 ∧
      s.taken = n + 1 := by
  have hone : ∃ t, (.read i false :: .run i true :: .signal i ::
      List.replicate 3 (.run i true)).foldlM State.step (.initial : State ι) = some t ∧
        t.readers i = .idle ∧ t.events = 0 ∧ t.taken = 1 ∧ t.woken = 1 := by
    simp [State.step, State.readStep, State.initial]
  obtain ⟨t, ht, hti, hte, htt, htw⟩ := hone
  obtain ⟨u, hu, -, -, hue, hut, huw⟩ := reads_run (count_eq ht) hti (by omega) n (by omega)
  refine ⟨_, u, foldlM_append_some.mpr ⟨t, ht, hu⟩, ?_, hue.trans hte, huw.trans htw, by omega⟩
  intro a ha
  obtain ha | ha := List.mem_append.mp ha
  · simp only [List.replicate, List.mem_cons, List.not_mem_nil, or_false] at ha
    obtain rfl | rfl | rfl | rfl | rfl | rfl := ha <;> rfl
  · exact mem_readAll_by n a ha

end OSCompas.Gpio.Button
