import OSCompas.Lib.Smp
import OSCompas.Lib.Runs

/-!
# The spin lock (`kernel/arch_x86/context_switch.S`)

`lock cmpxchg` compares the lock word with `eax`, and in `spin_lock` `eax` is the address of the
lock.  Where they differ, `eax` is loaded with the word that was found, and the loop goes on with
that as the address.

* `spinLock`, `spinUnlock` — the two routines;
* `State`, `step` — any number of processors, one instruction of one of them at a time;
* `Works` — the property for one lock address;
* `Inv` — the lock is taken at address 0 only.

Principal results: `step_inv`, `spin_lock_excludes`, `word_never_one` and `spin_lock_works_iff`.
-/

set_option autoImplicit false

namespace OSCompas.Switch.SpinLock

open Smp ByteMemory Function Runs

/-! ## The routines -/

/-- The index of `.spin_loop`. -/
def spinLoop : Nat := 1

/-- `spin_lock`. -/
def spinLock : List Instr := [
  .load 4 .esp .eax,
  .pause,
  .cmpImm 0 .eax,
  .jne spinLoop,
  .loadImm 1 .ebx,
  .lockCmpxchg .ebx .eax,
  .jne spinLoop,
  .ret]

/-- `spin_unlock`. -/
def spinUnlock : List Instr := [
  .load 4 .esp .eax,
  .storeImm 0 .eax,
  .ret]

inductive Routine where
  | spinLock
  | spinUnlock
  deriving DecidableEq, Repr

def Routine.code : Routine → List Instr
  | .spinLock => SpinLock.spinLock
  | .spinUnlock => SpinLock.spinUnlock

/-! ## The processors -/

/-- A processor: the routine that it runs with the index of the next instruction, `none` between
calls, and whether it is between its return from `spin_lock` and the store of its `spin_unlock`. -/
structure Cpu where
  core : Core
  running : Option (Routine × Nat)
  holds : Bool

structure State (ι : Type) where
  mem : Mem
  cpu : ι → Cpu

/-- A processor calls a routine with some registers, or runs the next instruction. -/
inductive Action (ι : Type) where
  | call (i : ι) (r : Routine) (c : Core)
  | run (i : ι)

/-- Whether the lock is held after an instruction. -/
def holdsAfter (r : Routine) (op : Instr) (holds : Bool) : Bool :=
  match r, op with
  | .spinLock, .ret => true
  | .spinUnlock, .storeImm .. => false
  | _, _ => holds

/-- The next instruction after the one at `pc`. -/
def runningAfter (r : Routine) (pc : Nat) : Flow → Option (Routine × Nat)
  | .next => some (r, pc + 1)
  | .jump l => some (r, l)
  | .back => none

variable {ι : Type} [DecidableEq ι]

def step (s : State ι) : Action ι → State ι
  | .call i r c =>
    { s with cpu := update s.cpu i { s.cpu i with core := c, running := some (r, 0) } }
  | .run i =>
    match (s.cpu i).running with
    | none => s
    | some (r, pc) =>
      match r.code[pc]? with
      | none => s
      | some op =>
        let (core, mem, flow) := op.step (s.cpu i).core s.mem
        ⟨mem, update s.cpu i ⟨core, runningAfter r pc flow, holdsAfter r op (s.cpu i).holds⟩⟩

/-! ## The property -/

/-- Calls are made between calls, with the address of the lock above the return address, and the one
who unlocks holds the lock. -/
def Allowed (lock : UInt32) (s : State ι) : Action ι → Prop
  | .call i r c => (s.cpu i).running = none ∧ word s.mem (c.reg .esp + 4) = lock ∧
      (r = .spinUnlock → (s.cpu i).holds = true)
  | .run _ => True

/-- No processor is in a call or holds the lock. -/
def Idle (s : State ι) : Prop := ∀ i, (s.cpu i).running = none ∧ (s.cpu i).holds = false

/-- A run of calls. -/
abbrev Run (lock : UInt32) : State ι → State ι → Prop :=
  Reaches (fun s a t => t = step s a) (Allowed lock)

/-- **At most one processor holds the lock**, whatever the order of the steps. -/
def Excludes (lock : UInt32) : Prop :=
  ∀ (ι : Type) [DecidableEq ι] (s₀ s : State ι), Idle s₀ → Run lock s₀ s →
    ∀ i j, (s.cpu i).holds = true → (s.cpu j).holds = true → i = j

/-- `n` instructions of one processor. -/
def alone (i : ι) : Nat → State ι → State ι
  | 0, s => s
  | n + 1, s => alone i n (step s (.run i))

/-- **A processor that runs `spin_lock` alone** on a lock whose word is 0 returns with 1 there. -/
def Returns (lock : UInt32) : Prop :=
  ∀ (ι : Type) [DecidableEq ι] (s : State ι) (i : ι) (c : Core),
    Allowed lock s (.call i .spinLock c) → word s.mem lock = 0 →
    ∃ n, ((alone i n (step s (.call i .spinLock c))).cpu i).running = none ∧
      word (alone i n (step s (.call i .spinLock c))).mem lock = 1

/-- The spin lock at `lock` works. -/
def Works (lock : UInt32) : Prop := Excludes lock ∧ Returns lock

variable {s s' : State ι} {i j : ι} {r : Routine} {c : Core} {lock : UInt32} {u : Cpu} {mem : Mem}
  {pc : Nat} {watched : Set UInt32}

/-! ## What a processor knows on its way -/

/-- What holds before the instruction at an index of `spin_lock`. -/
def Knows (mem : Mem) (c : Core) : Nat → Prop
  | 3 => c.zf = true → Bare mem (c.reg .eax)
  | 4 => Bare mem (c.reg .eax)
  | 5 => Bare mem (c.reg .eax) ∧ c.reg .ebx = 1
  | _ => True

/-- The processor has stored 1 at address 0, and the lock is not yet given back. -/
def Owns (u : Cpu) : Prop :=
  u.holds = true ∨ u.running = some (.spinLock, 6) ∧ u.core.zf = true ∨
    u.running = some (.spinLock, 7)

/-- **The lock is taken at address 0 only**; the words at `watched` are bare. -/
structure Inv (watched : Set UInt32) (s : State ι) : Prop where
  bare : ∀ a ∈ watched, Bare s.mem a
  knows : ∀ i pc, (s.cpu i).running = some (.spinLock, pc) → Knows s.mem (s.cpu i).core pc
  taken : ∀ i, Owns (s.cpu i) → s.mem 0 = 1
  unique : ∀ i j, Owns (s.cpu i) → Owns (s.cpu j) → i = j
  unlocks : ∀ i pc, (s.cpu i).running = some (.spinUnlock, pc) → pc ≤ 1 → (s.cpu i).holds = true

/-- Before the last two instructions of `spin_lock` the flag alone makes an owner. -/
theorem Owns.holds (h : Owns u)
    (haway : ∀ pc, u.running = some (.spinLock, pc) → pc < 6) : u.holds = true := by
  rcases h with ho | ⟨ho, -⟩ | ho
  · exact ho
  · have hpc := haway 6 ho
    omega
  · have hpc := haway 7 ho
    omega

/-- No processor but `i` owns the lock. -/
def NoOther (s : State ι) (i : ι) : Prop := ∀ j, j ≠ i → ¬ Owns (s.cpu j)

omit [DecidableEq ι] in
theorem Inv.noOther (h : Inv watched s) (ho : Owns (s.cpu i)) : NoOther s i := fun j hj hown =>
  hj (h.unique j i hown ho)

omit [DecidableEq ι] in
theorem Inv.noOther_of_zero (h : Inv watched s) (h0 : s.mem 0 = 0) : NoOther s i := by
  intro j _ hown
  have h1 := h.taken j hown
  rw [h0] at h1
  exact absurd h1 (by simp)

/-- A memory in which bare words stay bare. -/
theorem Knows.mono {mem' : Mem} (hbare : ∀ a, Bare mem a → Bare mem' a) (h : Knows mem c pc) :
    Knows mem' c pc := by
  unfold Knows at h ⊢
  split
  · exact fun hz => hbare _ (h hz)
  · exact hbare _ h
  · exact ⟨hbare _ h.1, h.2⟩
  · trivial

/-- **One processor moves.** -/
theorem Inv.move {mem' : Mem} (h : Inv watched s) (hbare : ∀ a, Bare s.mem a → Bare mem' a)
    (hknows : ∀ pc, u.running = some (.spinLock, pc) → Knows mem' u.core pc)
    (hothers : mem' 0 = s.mem 0 ∨ NoOther s i) (howns : Owns u → mem' 0 = 1 ∧ NoOther s i)
    (hunlocks : ∀ pc, u.running = some (.spinUnlock, pc) → pc ≤ 1 → u.holds = true) :
    Inv watched ⟨mem', update s.cpu i u⟩ where
  bare a ha := hbare a (h.bare a ha)
  knows k pc hk := by
    by_cases hki : k = i
    · subst hki
      simp only [update_self] at hk ⊢
      exact hknows pc hk
    · simp only [update_of_ne hki] at hk ⊢
      exact (h.knows k pc hk).mono hbare
  taken k hk := by
    by_cases hki : k = i
    · subst hki
      simp only [update_self] at hk
      exact (howns hk).1
    · simp only [update_of_ne hki] at hk
      rcases hothers with hsame | hno
      · exact hsame.trans (h.taken k hk)
      · exact absurd hk (hno k hki)
  unique k l hk hl := by
    by_cases hki : k = i
    · by_cases hli : l = i
      · rw [hki, hli]
      · subst hki
        simp only [update_self, update_of_ne hli] at hk hl
        exact absurd hl ((howns hk).2 l hli)
    · by_cases hli : l = i
      · subst hli
        simp only [update_self, update_of_ne hki] at hk hl
        exact absurd hk ((howns hl).2 k hki)
      · simp only [update_of_ne hki, update_of_ne hli] at hk hl
        exact h.unique k l hk hl
  unlocks k pc hk := by
    by_cases hki : k = i
    · subst hki
      simp only [update_self] at hk ⊢
      exact hunlocks pc hk
    · simp only [update_of_ne hki] at hk ⊢
      exact h.unlocks k pc hk

/-- A step that writes no memory. -/
theorem Inv.quiet (h : Inv watched s) (hknows : ∀ pc, u.running = some (.spinLock, pc) →
    Knows s.mem u.core pc) (howns : Owns u → Owns (s.cpu i))
    (hunlocks : ∀ pc, u.running = some (.spinUnlock, pc) → pc ≤ 1 → u.holds = true) :
    Inv watched ⟨s.mem, update s.cpu i u⟩ :=
  h.move (fun _ ha => ha) hknows (.inl rfl)
    (fun ho => ⟨h.taken i (howns ho), h.noOther (howns ho)⟩) hunlocks

/-! ## The steps -/

theorem step_run (op : Instr) (hr : (s.cpu i).running = some (r, pc))
    (hop : r.code[pc]? = some op) : step s (.run i) =
      ⟨(op.step (s.cpu i).core s.mem).2.1, update s.cpu i ⟨(op.step (s.cpu i).core s.mem).1,
        runningAfter r pc (op.step (s.cpu i).core s.mem).2.2,
        holdsAfter r op (s.cpu i).holds⟩⟩ := by
  simp only [step, hr, hop]

theorem step_over (hr : (s.cpu i).running = some (r, pc)) (hop : r.code[pc]? = none) :
    step s (.run i) = s := by
  simp only [step, hr, hop]

/-- An instruction of `spin_lock` that does not take the lock. -/
theorem Inv.onward {l : Nat} (h : Inv watched s) (hl : l < 6) (hknows : Knows s.mem c l) :
    Inv watched ⟨s.mem, update s.cpu i ⟨c, some (.spinLock, l), (s.cpu i).holds⟩⟩ := by
  apply h.quiet
  · intro pc hpc
    obtain rfl : l = pc := by simpa using hpc
    exact hknows
  · intro ho
    refine .inl (ho.holds fun pc hpc => ?_)
    obtain rfl : l = pc := by simpa using hpc
    exact hl
  · simp

/-- `lock cmpxchg` in `spin_lock`: it takes the lock at address 0 and nowhere else. -/
theorem Inv.exchange (h : Inv watched s) (hbare : Bare s.mem ((s.cpu i).core.reg .eax))
    (hone : (s.cpu i).core.reg .ebx = 1) (hr : (s.cpu i).running = some (.spinLock, 5)) :
    Inv watched (step s (.run i)) := by
  rw [step_run (.lockCmpxchg .ebx .eax) hr rfl]
  by_cases heq : word s.mem ((s.cpu i).core.reg .eax) = (s.cpu i).core.reg .eax
  · have hplace : (s.cpu i).core.reg .eax = 0 := by
      by_contra hne
      exact hbare.ne_address hne heq
    have hfree : s.mem 0 = 0 := by
      rw [hplace] at heq
      exact word_eq_zero_iff.mp heq 0 (by omega)
    rw [step_lockCmpxchg_eq heq]
    show Inv _ ⟨storeWord s.mem ((s.cpu i).core.reg .eax) ((s.cpu i).core.reg .ebx), _⟩
    rw [hplace, hone]
    refine h.move (fun _ ha => ha.one_at_zero) ?_ (.inr (h.noOther_of_zero hfree))
      (fun _ => ⟨rfl, h.noOther_of_zero hfree⟩) ?_
    · intro pc hpc
      obtain rfl : 6 = pc := by simpa [runningAfter] using hpc
      trivial
    · simp [runningAfter]
  · rw [step_lockCmpxchg_ne heq]
    refine h.quiet ?_ ?_ ?_
    · intro pc hpc
      obtain rfl : 6 = pc := by simpa [runningAfter] using hpc
      trivial
    · rintro (ho | ⟨-, ho⟩ | ho)
      · exact .inl ho
      · simp at ho
      · simp [runningAfter] at ho
    · simp [runningAfter]

/-- **One instruction of `spin_lock`.** -/
theorem Inv.spinLock_step (h : Inv watched s) (hr : (s.cpu i).running = some (.spinLock, pc)) :
    Inv watched (step s (.run i)) := by
  have hk := h.knows i pc hr
  by_cases hpc : pc < 8
  · obtain rfl | rfl | rfl | rfl | rfl | rfl | rfl | rfl :
        pc = 0 ∨ pc = 1 ∨ pc = 2 ∨ pc = 3 ∨ pc = 4 ∨ pc = 5 ∨ pc = 6 ∨ pc = 7 := by omega
    · rw [step_run (.load 4 .esp .eax) hr rfl]
      exact h.onward (l := 1) (by omega) trivial
    · rw [step_run .pause hr rfl]
      exact h.onward (l := 2) (by omega) trivial
    · rw [step_run (.cmpImm 0 .eax) hr rfl]
      exact h.onward (l := 3) (by omega) fun hz => .of_zero (of_decide_eq_true hz)
    · rw [step_run (.jne spinLoop) hr rfl]
      cases hz : (s.cpu i).core.zf with
      | true =>
        simp only [Instr.step, hz, if_true]
        exact h.onward (l := 4) (by omega) (hk hz)
      | false =>
        simp only [Instr.step, hz]
        exact h.onward (l := 1) (by omega) trivial
    · rw [step_run (.loadImm 1 .ebx) hr rfl]
      refine h.onward (l := 5) (by omega) ⟨?_, set_reg _ _ _⟩
      show Bare s.mem (((s.cpu i).core.set .ebx 1).reg .eax)
      rw [set_reg_of_ne (by simp)]
      exact hk
    · exact h.exchange hk.1 hk.2 hr
    · rw [step_run (.jne spinLoop) hr rfl]
      cases hz : (s.cpu i).core.zf with
      | true =>
        simp only [Instr.step, hz, if_true]
        refine h.quiet ?_ ?_ ?_
        · intro pc hpc
          obtain rfl : 7 = pc := by simpa [runningAfter] using hpc
          trivial
        · exact fun _ => .inr (.inl ⟨hr, hz⟩)
        · simp [runningAfter]
      | false =>
        simp only [Instr.step, hz]
        exact h.onward (l := 1) (by omega) trivial
    · rw [step_run .ret hr rfl]
      refine h.quiet ?_ ?_ ?_
      · simp [Instr.step, runningAfter]
      · exact fun _ => .inr (.inr hr)
      · simp [Instr.step, runningAfter]
  · rw [step_over hr (List.getElem?_eq_none (show 8 ≤ pc by omega))]
    exact h

/-- **One instruction of `spin_unlock`.** -/
theorem Inv.spinUnlock_step (h : Inv watched s)
    (hr : (s.cpu i).running = some (.spinUnlock, pc)) : Inv watched (step s (.run i)) := by
  by_cases hpc : pc < 3
  · obtain rfl | rfl | rfl : pc = 0 ∨ pc = 1 ∨ pc = 2 := by omega
    · have hheld : (s.cpu i).holds = true := h.unlocks i 0 hr (by omega)
      rw [step_run (.load 4 .esp .eax) hr rfl]
      refine h.quiet ?_ (fun _ => .inl hheld) fun _ _ _ => hheld
      simp [Instr.step, runningAfter]
    · have hheld : (s.cpu i).holds = true := h.unlocks i 1 hr (by omega)
      rw [step_run (.storeImm 0 .eax) hr rfl]
      refine h.move (fun _ ha => ha.clear _) ?_ (.inr (h.noOther (.inl hheld))) ?_ ?_
      · simp [Instr.step, runningAfter]
      · simp [Owns, Instr.step, runningAfter, holdsAfter]
      · simp [Instr.step, runningAfter]
    · rw [step_run .ret hr rfl]
      refine h.quiet ?_ ?_ ?_
      · simp [Instr.step, runningAfter]
      · intro ho
        exact .inl (ho.holds (by simp [Instr.step, runningAfter]))
      · simp [Instr.step, runningAfter]
  · rw [step_over hr (List.getElem?_eq_none (show 3 ≤ pc by omega))]
    exact h

/-- **Every step keeps the invariant.** -/
theorem step_inv (h : Inv watched s) {a : Action ι} (ha : Allowed lock s a) :
    Inv watched (step s a) := by
  cases a with
  | call i r c =>
    obtain ⟨hidle, -, hheld⟩ := ha
    refine h.quiet ?_ ?_ ?_
    · intro pc hpc
      obtain ⟨rfl, rfl⟩ : r = .spinLock ∧ 0 = pc := by simpa using hpc
      trivial
    · intro ho
      refine .inl (ho.holds fun pc hpc => ?_)
      obtain ⟨-, rfl⟩ : r = .spinLock ∧ 0 = pc := by simpa using hpc
      omega
    · intro pc hpc _
      exact hheld (by simpa using (Prod.mk.inj (Option.some.inj hpc)).1)
  | run i =>
    cases hr : (s.cpu i).running with
    | none =>
      have hsame : step s (.run i) = s := by simp only [step, hr]
      rw [hsame]
      exact h
    | some p =>
      obtain ⟨r, pc⟩ := p
      cases r with
      | spinLock => exact h.spinLock_step hr
      | spinUnlock => exact h.spinUnlock_step hr

omit [DecidableEq ι] in
theorem Idle.inv (h : Idle s) (hbare : ∀ a ∈ watched, Bare s.mem a) : Inv watched s where
  bare := hbare
  knows i pc hr := by simp [(h i).1] at hr
  taken i ho := by simp [Owns, (h i).1, (h i).2] at ho
  unique i j ho := by simp [Owns, (h i).1, (h i).2] at ho
  unlocks i pc hr := by simp [(h i).1] at hr

/-! ## The lock -/

/-- **Two processors never hold the lock**, wherever it is. -/
theorem spin_lock_excludes (lock : UInt32) : Excludes lock := by
  intro ι _ s₀ s h₀ hrun i j hi hj
  have hinv : Inv ∅ s := hrun.invariant (h₀.inv (by simp)) fun s a s' h ha hs => by
    subst hs
    exact step_inv h ha
  exact hinv.unique i j (.inl hi) (.inl hj)

/-- **A lock elsewhere than at address 0 is never 1**, once it was 0. -/
theorem word_never_one {s₀ : State ι} (hne : lock ≠ 0) (h₀ : Idle s₀)
    (hzero : word s₀.mem lock = 0) (hrun : Run lock s₀ s) : word s.mem lock ≠ 1 := by
  have hinit : Inv {lock} s₀ := h₀.inv fun a ha => by
    rw [Set.mem_singleton_iff.mp ha]
    exact .of_zero hzero
  have hinv : Inv {lock} s := hrun.invariant hinit fun s a s' h ha hs => by
    subst hs
    exact step_inv h ha
  exact (hinv.bare lock rfl).ne_one hne

theorem run_one {a : Action ι} (ha : Allowed lock s a) : Run lock s (step s a) :=
  .step .refl ha rfl

/-- What a processor does alone is a run. -/
theorem alone_run (lock : UInt32) (i : ι) (n : Nat) (s : State ι) : Run lock s (alone i n s) := by
  induction n generalizing s with
  | zero => exact .refl
  | succ n ih => exact (run_one (a := .run i) trivial).trans (ih _)

/-- One more instruction of `spin_lock`. -/
theorem alone_next {f : ι → Cpu} {c' : Core} {mem' : Mem} {b : Bool} (op : Instr)
    (hop : Routine.spinLock.code[pc]? = some op) (hs : op.step c mem = (c', mem', .next))
    (n : Nat) :
    alone i (n + 1) ⟨mem, update f i ⟨c, some (.spinLock, pc), b⟩⟩ =
      alone i n ⟨mem', update f i ⟨c', some (.spinLock, pc + 1), holdsAfter .spinLock op b⟩⟩ := by
  have hr : ((⟨mem, update f i ⟨c, some (.spinLock, pc), b⟩⟩ : State ι).cpu i).running =
      some (.spinLock, pc) := by simp
  rw [alone, step_run op hr hop]
  simp [hs, runningAfter]

/-- The return of `spin_lock`. -/
theorem alone_ret {f : ι → Cpu} {b : Bool} :
    alone i 1 ⟨mem, update f i ⟨c, some (.spinLock, 7), b⟩⟩ =
      ⟨mem, update f i ⟨c.set .esp (c.reg .esp + 4), none, true⟩⟩ := by
  have hr : ((⟨mem, update f i ⟨c, some (.spinLock, 7), b⟩⟩ : State ι).cpu i).running =
      some (.spinLock, 7) := by simp
  rw [alone, step_run .ret hr rfl]
  simp [alone, Instr.step, runningAfter, holdsAfter]

/-- At address 0 the comparison is with the right value. -/
theorem returns_zero : Returns 0 := by
  rintro ι _ s i c ⟨-, harg, -⟩ hzero
  let c₁ : Core := c.set .eax 0
  let c₂ : Core := { c₁ with zf := true }
  let c₃ : Core := c₂.set .ebx 1
  have heax : c₃.reg .eax = 0 := by simp [c₃, c₂, c₁, Core.set]
  have hload : (Instr.load 4 .esp .eax).step c s.mem = (c₁, s.mem, .next) := by
    simp [Instr.step, c₁, harg]
  have hcmp : (Instr.cmpImm 0 .eax).step c₁ s.mem = (c₂, s.mem, .next) := by
    simp [Instr.step, c₂, c₁, hzero]
  have hxchg : (Instr.lockCmpxchg .ebx .eax).step c₃ s.mem =
      (c₃, storeWord s.mem 0 1, .next) := by
    have hebx : c₃.reg .ebx = 1 := set_reg _ _ _
    rw [step_lockCmpxchg_eq (by rw [heax, hzero]), heax, hebx]
    rfl
  have hend : alone i 8 (step s (.call i .spinLock c)) = ⟨storeWord s.mem 0 1,
      update s.cpu i ⟨c₃.set .esp (c₃.reg .esp + 4), none, true⟩⟩ := by
    show alone i 8 ⟨s.mem, update s.cpu i ⟨c, some (.spinLock, 0), (s.cpu i).holds⟩⟩ = _
    rw [alone_next (.load 4 .esp .eax) rfl hload,
      alone_next .pause rfl rfl, alone_next (.cmpImm 0 .eax) rfl hcmp,
      alone_next (.jne spinLoop) rfl rfl, alone_next (.loadImm 1 .ebx) rfl rfl,
      alone_next (.lockCmpxchg .ebx .eax) rfl hxchg,
      alone_next (.jne spinLoop) rfl rfl, alone_ret]
  refine ⟨8, ?_, ?_⟩
  · rw [hend]
    simp
  · rw [hend]
    dsimp only
    rw [word_storeWord]

/-- A memory with the address `lock` in the word above the lock, which is 0. -/
def argumentAbove (lock : UInt32) : Mem := storeWord (fun _ => 0) (lock + 4) lock

theorem argumentAbove_word (lock : UInt32) : word (argumentAbove lock) lock = 0 := by
  apply word_eq_zero_iff.mpr
  intro k hk
  have hlock : lock.toNat < 2 ^ 32 := lock.toNat_lt
  have hplace : (lock + 4).toNat = (lock.toNat + 4) % 2 ^ 32 := UInt32.toNat_add _ _
  have hfar : ¬ offset X86.W (lock + 4).toNat ((lock.toNat + k) % X86.W) < 4 := by
    unfold offset
    simp only [X86.W, hplace]
    omega
  unfold argumentAbove storeWord
  rw [store_of_not_lt hfar]

/-- Elsewhere the lock word does not become 1. -/
theorem not_returns_of (hne : lock ≠ 0) (harg : word mem (lock + 4) = lock)
    (hzero : word mem lock = 0) : ¬ Returns lock := by
  intro hret
  let c : Core := ⟨fun _ => lock, false⟩
  let s : State Unit := ⟨mem, fun _ => ⟨c, none, false⟩⟩
  have hcall : Allowed lock s (.call () .spinLock c) := ⟨rfl, harg, by simp⟩
  obtain ⟨n, -, hone⟩ := hret Unit s () c hcall hzero
  have hidle : Idle s := fun _ => ⟨rfl, rfl⟩
  have hrun := (run_one hcall).trans (alone_run lock () n _)
  exact word_never_one hne hidle hzero hrun hone

theorem not_returns (hne : lock ≠ 0) : ¬ Returns lock :=
  not_returns_of hne (word_storeWord (fun _ => 0) (lock + 4) lock) (argumentAbove_word lock)

/-- **The spin lock works just at address 0.** -/
theorem spin_lock_works_iff (lock : UInt32) : Works lock ↔ lock = 0 := by
  constructor
  · intro h
    by_contra hne
    exact not_returns hne h.2
  · rintro rfl
    exact ⟨spin_lock_excludes 0, returns_zero⟩

/-- A lock at `0x1000` is not taken. -/
theorem never_taken : ¬ Works 0x1000 := fun h => not_returns (by decide) h.2

end OSCompas.Switch.SpinLock
