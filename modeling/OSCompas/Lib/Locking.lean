import OSCompas.Lib.Runs
import Mathlib.Logic.Function.Basic

/-!
# One lock, one processor, interrupts

Procedures that take and release one lock, run by processes `π` on a single processor on which an
interrupt can arrive between any two steps, and which may save their context and load that of
another process.

* `Code σ π ρ` — a procedure as a tree: what it does to the state `σ` step by step, the lock, the
  call of the one procedure the others share, and the two halves of a context switch;
* `Code.eval` — a procedure run by itself;
* `Cpu`, `System.step` — the processor, its stack of activations and the saved contexts;
* `Code.Orderly`, `Code.Lockless` — a procedure that locks and unlocks in turn, a handler that
  leaves the lock to the shared procedure;
* `Stacked` — the invariant of the stack.

Principal results: `Code.Orderly.eval` (an orderly procedure returns with the lock released),
`System.reaches_of_eval` (a procedure run by itself is a run), `System.step_stacked` and
`System.never_spins`.
-/

set_option autoImplicit false

namespace OSCompas.Locking

open Function Runs

/-- A procedure that works on a state `σ` for processes `π` and returns a `ρ`. -/
inductive Code (σ π ρ : Type) where
  | ret (r : ρ)
  /-- The machine stops here. -/
  | crash
  /-- One step; how it goes on is decided by the state before it. -/
  | step (f : σ → σ) (k : σ → Code σ π ρ)
  | lock (k : Code σ π ρ)
  | unlock (k : Code σ π ρ)
  /-- Call the shared procedure. -/
  | call (k : Code σ π ρ)
  /-- Save the context of a process: it would go on behind this point. -/
  | save (p : π) (k : Code σ π ρ)
  /-- Load the context of a process. -/
  | jump (p : π)

/-- What a procedure run by itself comes to. -/
inductive Outcome (σ π ρ : Type) where
  | returned (s : σ) (held : Bool) (r : ρ)
  /-- The processor left for another process. -/
  | left (s : σ) (held : Bool) (p : π)
  | stuck

variable {σ π ρ κ : Type}

/-- The state at the end. -/
def Outcome.data? : Outcome σ π ρ → Option σ
  | returned s _ _ => some s
  | left s _ _ => some s
  | stuck => none

namespace Code

/-- One step after which the procedure goes on with `k`. -/
def act (f : σ → σ) (k : Code σ π ρ) : Code σ π ρ := .step f fun _ => k

/-- A test of the state. -/
def test (k : σ → Code σ π ρ) : Code σ π ρ := .step id k

/-- The procedure run by itself, when the shared one does `shared`. -/
def eval (shared : σ → Bool → Outcome σ π ρ) : Code σ π ρ → σ → Bool → Outcome σ π ρ
  | ret r, s, held => .returned s held r
  | crash, _, _ => .stuck
  | step f k, s, held => (k s).eval shared (f s) held
  | lock k, s, held => if held then .stuck else k.eval shared s true
  | unlock k, s, _ => k.eval shared s false
  | call k, s, held =>
    match shared s held with
    | .returned s held _ => k.eval shared s held
    | o => o
  | save _ k, s, held => k.eval shared s held
  | jump p, s, held => .left s held p

variable {shared : σ → Bool → Outcome σ π ρ} {s : σ} {held : Bool} {k : Code σ π ρ}

@[simp] theorem eval_ret (r : ρ) : (ret r).eval shared s held = .returned s held r := rfl

@[simp] theorem eval_crash : (crash : Code σ π ρ).eval shared s held = .stuck := rfl

@[simp] theorem eval_step (f : σ → σ) (k : σ → Code σ π ρ) :
    (step f k).eval shared s held = (k s).eval shared (f s) held := rfl

@[simp] theorem eval_act (f : σ → σ) : (act f k).eval shared s held = k.eval shared (f s) held := rfl

@[simp] theorem eval_test (k : σ → Code σ π ρ) :
    (test k).eval shared s held = (k s).eval shared s held := rfl

@[simp] theorem eval_lock_free : (lock k).eval shared s false = k.eval shared s true := rfl

@[simp] theorem eval_unlock : (unlock k).eval shared s held = k.eval shared s false := rfl

@[simp] theorem eval_save (p : π) : (save p k).eval shared s held = k.eval shared s held := rfl

@[simp] theorem eval_jump (p : π) :
    (jump p : Code σ π ρ).eval shared s held = .left s held p := rfl

/-- Entered with the lock `held` or not, the procedure locks only what is free, unlocks only what
it locked, returns and calls with the lock free, and switches contexts with the lock held. -/
def Orderly : Code σ π ρ → Bool → Prop
  | ret _, held => held = false
  | crash, _ => True
  | step _ k, held => ∀ s, (k s).Orderly held
  | lock k, held => held = false ∧ k.Orderly true
  | unlock k, held => held = true ∧ k.Orderly false
  | call k, held => held = false ∧ k.Orderly false
  | save _ k, held => held = true ∧ k.Orderly true
  | jump _, held => held = true

/-- The procedure leaves the lock and the contexts to the shared one. -/
def Lockless : Code σ π ρ → Prop
  | ret _ => True
  | crash => True
  | step _ k => ∀ s, (k s).Lockless
  | call k => k.Lockless
  | _ => False

@[simp] theorem orderly_ret (r : ρ) : (ret r : Code σ π ρ).Orderly held ↔ held = false := Iff.rfl

@[simp] theorem orderly_crash : (crash : Code σ π ρ).Orderly held := trivial

@[simp] theorem orderly_step (f : σ → σ) (k : σ → Code σ π ρ) :
    (step f k).Orderly held ↔ ∀ s, (k s).Orderly held := Iff.rfl

@[simp] theorem orderly_test (k : σ → Code σ π ρ) :
    (test k).Orderly held ↔ ∀ s, (k s).Orderly held := Iff.rfl

@[simp] theorem orderly_act [Nonempty σ] (f : σ → σ) : (act f k).Orderly held ↔ k.Orderly held :=
  forall_const σ

@[simp] theorem orderly_lock : (lock k).Orderly held ↔ held = false ∧ k.Orderly true := Iff.rfl

@[simp] theorem orderly_unlock : (unlock k).Orderly held ↔ held = true ∧ k.Orderly false := Iff.rfl

@[simp] theorem orderly_call : (call k).Orderly held ↔ held = false ∧ k.Orderly false := Iff.rfl

@[simp] theorem orderly_save (p : π) : (save p k).Orderly held ↔ held = true ∧ k.Orderly true :=
  Iff.rfl

@[simp] theorem orderly_jump (p : π) : (jump p : Code σ π ρ).Orderly held ↔ held = true := Iff.rfl

@[simp] theorem lockless_ret (r : ρ) : (ret r : Code σ π ρ).Lockless := trivial

@[simp] theorem lockless_crash : (crash : Code σ π ρ).Lockless := trivial

@[simp] theorem lockless_test (k : σ → Code σ π ρ) :
    (test k).Lockless ↔ ∀ s, (k s).Lockless := Iff.rfl

@[simp] theorem lockless_act [Nonempty σ] (f : σ → σ) : (act f k).Lockless ↔ k.Lockless :=
  forall_const σ

@[simp] theorem lockless_call : (call k).Lockless ↔ k.Lockless := Iff.rfl

/-- **An orderly procedure returns with the lock released.** -/
theorem Orderly.eval {c : Code σ π ρ} {s' : σ} {held' : Bool} {r : ρ} (h : c.Orderly held)
    (hshared : ∀ s s' held' r, shared s false = .returned s' held' r → held' = false)
    (he : c.eval shared s held = .returned s' held' r) : held' = false := by
  induction c generalizing s held with
  | ret r =>
    cases he
    exact h
  | crash => cases he
  | step f k ih => exact ih s (h s) he
  | lock k ih =>
    obtain ⟨rfl, hk⟩ := h
    exact ih hk he
  | unlock k ih => exact ih h.2 he
  | call k ih =>
    obtain ⟨rfl, hk⟩ := h
    unfold Code.eval at he
    split at he
    · rename_i s₁ held₁ r₁ hs
      rw [hshared s s₁ held₁ r₁ hs] at he
      exact ih hk he
    · rename_i o ho
      exact absurd he (ho s' held' r)
  | save p k ih =>
    obtain ⟨rfl, hk⟩ := h
    exact ih hk he
  | jump p => cases he

end Code

/-! ## The processor -/

/-- A procedure that is running, or interrupted, or waits for one it called. -/
structure Frame (σ π ρ : Type) where
  /-- It is the handler of an interrupt. -/
  handler : Bool
  code : Code σ π ρ

/-- The processor.  With no frame it runs code of a process outside the procedures. -/
structure Cpu (σ π ρ : Type) where
  data : σ
  held : Bool
  frames : List (Frame σ π ρ)
  saved : π → Option (List (Frame σ π ρ))

/-- The procedures that can be called, the handler, and what they share. -/
structure System (σ π ρ κ : Type) where
  code : κ → Code σ π ρ
  handler : Code σ π ρ
  shared : Code σ π ρ

inductive Event (κ : Type) where
  /-- The running process calls a procedure. -/
  | call (c : κ)
  | interrupt
  /-- The running procedure takes its next step. -/
  | run
  deriving DecidableEq, Repr

variable [DecidableEq π]

/-- The next step of the running procedure; a lock that is held keeps it where it is. -/
def System.next (S : System σ π ρ κ) (m : Cpu σ π ρ) (i : Bool) (rest : List (Frame σ π ρ)) :
    Code σ π ρ → Option (Cpu σ π ρ)
  | .ret _ => some { m with frames := rest }
  | .crash => none
  | .step f k => some { m with data := f m.data, frames := ⟨i, k m.data⟩ :: rest }
  | .lock k => some (if m.held then m else { m with held := true, frames := ⟨i, k⟩ :: rest })
  | .unlock k => some { m with held := false, frames := ⟨i, k⟩ :: rest }
  | .call k => some { m with frames := ⟨false, S.shared⟩ :: ⟨i, k⟩ :: rest }
  | .save p k => some { m with
      saved := update m.saved p (some (⟨i, k⟩ :: rest)), frames := ⟨i, k⟩ :: rest }
  | .jump p => some { m with frames := (m.saved p).getD [] }

/-- A process that never was saved starts with no frame. -/
def System.step (S : System σ π ρ κ) (m : Cpu σ π ρ) : Event κ → Option (Cpu σ π ρ)
  | .call c =>
    match m.frames with
    | [] => some { m with frames := [⟨false, S.code c⟩] }
    | _ :: _ => none
  | .interrupt => some { m with frames := ⟨true, S.handler⟩ :: m.frames }
  | .run =>
    match m.frames with
    | [] => none
    | f :: rest => S.next m f.handler rest f.code

def System.Step (S : System σ π ρ κ) (m : Cpu σ π ρ) (e : Event κ) (m' : Cpu σ π ρ) : Prop :=
  S.step m e = some m'

/-- The lock is taken while it is held. -/
def Cpu.spins (m : Cpu σ π ρ) : Bool :=
  match m.held, m.frames with
  | true, ⟨_, .lock _⟩ :: _ => true
  | _, _ => false

/-- A handler calls the shared procedure only while the lock is free, and a context is loaded only
where one was saved. -/
def Disciplined (m : Cpu σ π ρ) : Event κ → Prop
  | .run =>
    match m.frames with
    | ⟨true, .call _⟩ :: _ => m.held = false
    | ⟨_, .jump p⟩ :: _ => (m.saved p).isSome
    | _ => True
  | _ => True

instance (m : Cpu σ π ρ) (e : Event κ) : Decidable (Disciplined m e) := by
  cases e <;> unfold Disciplined
  · infer_instance
  · infer_instance
  · dsimp only
    split <;> infer_instance

/-! ## A procedure run by itself -/

variable {S : System σ π ρ κ} {m m' : Cpu σ π ρ} {e : Event κ}

/-- The shared procedure run by itself; it calls nothing. -/
def System.evalShared (S : System σ π ρ κ) (s : σ) (held : Bool) : Outcome σ π ρ :=
  S.shared.eval (fun _ _ => .stuck) s held

/-- A call that is not interrupted. -/
def System.eval (S : System σ π ρ κ) (c : κ) (s : σ) (held : Bool) : Outcome σ π ρ :=
  (S.code c).eval S.evalShared s held

/-- Nothing is called, and no interrupt arrives. -/
def Undisturbed (_ : Cpu σ π ρ) (e : Event κ) : Prop := e = .run

/-- The code `c` on top of `rest` comes to return `r`. -/
def Completes (S : System σ π ρ κ) (c : Code σ π ρ) (s : σ) (held : Bool) (s' : σ) (held' : Bool)
    (r : ρ) : Prop :=
  ∀ i rest saved, ∃ saved', Reaches S.Step Undisturbed ⟨s, held, ⟨i, c⟩ :: rest, saved⟩
    ⟨s', held', ⟨i, .ret r⟩ :: rest, saved'⟩

theorem completes_of_eval {shared : σ → Bool → Outcome σ π ρ}
    (hshared : ∀ s held s' held' r, shared s held = .returned s' held' r →
      Completes S S.shared s held s' held' r) {c : Code σ π ρ} {s s' : σ} {held held' : Bool} {r : ρ}
    (h : c.eval shared s held = .returned s' held' r) : Completes S c s held s' held' r := by
  have hrun : ∀ {m m' t : Cpu σ π ρ}, S.step m .run = some m' →
      Reaches S.Step Undisturbed m' t → Reaches S.Step Undisturbed m t := fun {m m' t} hs ht => by
    have h1 : Reaches S.Step Undisturbed m m' := .step .refl rfl hs
    exact h1.trans ht
  induction c generalizing s held with
  | ret r =>
    cases h
    exact fun i rest saved => ⟨saved, .refl⟩
  | crash => cases h
  | step f k ih =>
    intro i rest saved
    obtain ⟨saved', hr⟩ := ih s h i rest saved
    exact ⟨saved', hrun rfl hr⟩
  | lock k ih =>
    intro i rest saved
    cases held with
    | true => cases h
    | false =>
      obtain ⟨saved', hr⟩ := ih h i rest saved
      exact ⟨saved', hrun rfl hr⟩
  | unlock k ih =>
    intro i rest saved
    obtain ⟨saved', hr⟩ := ih h i rest saved
    exact ⟨saved', hrun rfl hr⟩
  | call k ih =>
    intro i rest saved
    unfold Code.eval at h
    split at h
    · rename_i s₁ held₁ r₁ hs
      obtain ⟨saved₁, hr₁⟩ := hshared s held s₁ held₁ r₁ hs false (⟨i, k⟩ :: rest) saved
      obtain ⟨saved', hr⟩ := ih h i rest saved₁
      -- the shared procedure returns, and the caller goes on
      exact ⟨saved', hrun rfl (hr₁.trans (hrun rfl hr))⟩
    · rename_i o ho
      exact absurd h (ho s' held' r)
  | save p k ih =>
    intro i rest saved
    obtain ⟨saved', hr⟩ := ih h i rest _
    exact ⟨saved', hrun rfl hr⟩
  | jump p => cases h

/-- **A call that is not interrupted is a run of the processor.** -/
theorem System.reaches_of_eval {c : κ} {s s' : σ} {held held' : Bool} {r : ρ}
    (h : S.eval c s held = .returned s' held' r) : Completes S (S.code c) s held s' held' r := by
  refine completes_of_eval (fun s held s' held' r hs => completes_of_eval ?_ hs) h
  intro _ _ _ _ _ hn
  cases hn

/-! ## The discipline -/

/-- The frames fit the lock: the innermost one is orderly from where it is, a handler and what it
interrupted see the same lock, and a procedure is called with the lock free. -/
inductive Stacked : Bool → List (Frame σ π ρ) → Prop where
  | nil : Stacked false []
  | procedure {held : Bool} {c : Code σ π ρ} {rest : List (Frame σ π ρ)} :
      c.Orderly held → Stacked false rest → Stacked held (⟨false, c⟩ :: rest)
  | handler {held : Bool} {c : Code σ π ρ} {rest : List (Frame σ π ρ)} :
      c.Lockless → Stacked held rest → Stacked held (⟨true, c⟩ :: rest)

/-- The frames and the saved contexts fit the lock; a context is saved with the lock held. -/
structure Cpu.Fits (m : Cpu σ π ρ) : Prop where
  frames : Stacked m.held m.frames
  saved : ∀ p, ∀ fs ∈ m.saved p, Stacked true fs

/-- The procedures keep to the discipline. -/
structure System.Orderly (S : System σ π ρ κ) : Prop where
  code : ∀ c, (S.code c).Orderly false
  handler : S.handler.Lockless
  shared : S.shared.Orderly false

omit [DecidableEq π] in
/-- **Every call that returns leaves the lock free**, if it finds it free. -/
theorem System.Orderly.released {c : κ} {s s' : σ} {held : Bool} {r : ρ} (hS : S.Orderly)
    (h : S.eval c s false = .returned s' held r) : held = false := by
  refine (hS.code c).eval (fun s s' held r he => hS.shared.eval ?_ he) h
  intro _ _ _ _ hn
  cases hn

/-- A step of an orderly procedure. -/
theorem System.Orderly.procedure {c : Code σ π ρ} {rest : List (Frame σ π ρ)} (hS : S.Orderly)
    (hc : c.Orderly m.held) (hrest : Stacked false rest)
    (hsaved : ∀ p, ∀ fs ∈ m.saved p, Stacked true fs) (hjump : ∀ p, c = .jump p → (m.saved p).isSome)
    (hs : S.next m false rest c = some m') : m'.Fits := by
  cases c with
  | ret r =>
    cases hs
    exact ⟨hc ▸ hrest, hsaved⟩
  | crash => cases hs
  | step f k =>
    cases hs
    exact ⟨.procedure (hc m.data) hrest, hsaved⟩
  | lock k =>
    obtain ⟨hfree, hk⟩ := hc
    unfold System.next at hs
    rw [hfree] at hs
    cases hs
    exact ⟨.procedure hk hrest, hsaved⟩
  | unlock k =>
    cases hs
    exact ⟨.procedure hc.2 hrest, hsaved⟩
  | call k =>
    cases hs
    obtain ⟨hfree, hk⟩ := hc
    exact ⟨.procedure (hfree ▸ hS.shared) (.procedure hk hrest), hsaved⟩
  | save p k =>
    cases hs
    obtain ⟨hheld, hk⟩ := hc
    have hfs : Stacked true (⟨false, k⟩ :: rest) := .procedure hk hrest
    refine ⟨hheld ▸ hfs, fun q fs hq => ?_⟩
    dsimp only at hq
    by_cases hqp : q = p
    · subst hqp
      rw [update_self] at hq
      cases hq
      exact hfs
    · rw [update_of_ne hqp] at hq
      exact hsaved q fs hq
  | jump p =>
    -- the context that is loaded was saved with the lock held, as it is now
    have hheld : m.held = true := hc
    obtain ⟨fs, hfs⟩ := Option.isSome_iff_exists.mp (hjump p rfl)
    simp only [System.next, hfs, Option.getD_some, Option.some.injEq] at hs
    subst hs
    exact ⟨hheld ▸ hsaved p fs hfs, hsaved⟩

/-- A step of a handler. -/
theorem System.Orderly.handler_step {c : Code σ π ρ} {rest : List (Frame σ π ρ)} (hS : S.Orderly)
    (hc : c.Lockless) (hrest : Stacked m.held rest)
    (hsaved : ∀ p, ∀ fs ∈ m.saved p, Stacked true fs) (hcall : ∀ k, c = .call k → m.held = false)
    (hs : S.next m true rest c = some m') : m'.Fits := by
  cases c with
  | ret r =>
    cases hs
    exact ⟨hrest, hsaved⟩
  | crash => cases hs
  | step f k =>
    cases hs
    exact ⟨.handler (hc m.data) hrest, hsaved⟩
  | call k =>
    cases hs
    have hfree := hcall k rfl
    rw [hfree] at hrest
    have hshared : S.shared.Orderly m.held := hfree ▸ hS.shared
    exact ⟨.procedure hshared (.handler hc hrest), hsaved⟩
  | lock k => cases hc
  | unlock k => cases hc
  | save p k => cases hc
  | jump p => cases hc

/-- **A disciplined step keeps the stack fitting.** -/
theorem System.step_stacked (hS : S.Orderly) (hm : m.Fits) (hd : Disciplined m e)
    (hs : S.Step m e m') : m'.Fits := by
  obtain ⟨hframes, hsaved⟩ := hm
  obtain ⟨s, held, frames, saved⟩ := m
  cases e with
  | call c =>
    cases hframes with
    | nil =>
      cases hs
      exact ⟨.procedure (hS.code c) .nil, hsaved⟩
    | procedure _ _ => cases hs
    | handler _ _ => cases hs
  | interrupt =>
    cases hs
    exact ⟨.handler hS.handler hframes, hsaved⟩
  | run =>
    cases hframes with
    | nil => cases hs
    | procedure hc hrest =>
      refine hS.procedure hc hrest hsaved (fun p hp => ?_) hs
      subst hp
      exact hd
    | handler hc hrest =>
      refine hS.handler_step hc hrest hsaved (fun k hk => ?_) hs
      subst hk
      exact hd

omit [DecidableEq π] in
/-- What spins is at a lock that is held. -/
theorem Cpu.spins_iff (m : Cpu σ π ρ) : m.spins = true ↔
    m.held = true ∧ ∃ i k rest, m.frames = ⟨i, .lock k⟩ :: rest := by
  unfold Cpu.spins
  split
  · rename_i i k rest hheld hframes
    exact ⟨fun _ => ⟨hheld, i, k, rest, hframes⟩, fun _ => rfl⟩
  · rename_i hno
    refine ⟨nofun, ?_⟩
    rintro ⟨hheld, i, k, rest, hframes⟩
    exact (hno i k rest hheld hframes).elim

omit [DecidableEq π] in
theorem Cpu.Fits.not_spins (hm : m.Fits) : m.spins = false := by
  rw [Bool.eq_false_iff]
  intro hspins
  obtain ⟨hheld, i, k, rest, hlock⟩ := m.spins_iff.mp hspins
  have hframes := hm.frames
  rw [hlock, hheld] at hframes
  cases hframes with
  | procedure hc _ => cases hc.1
  | handler hc _ => cases hc

/-- **In a disciplined run the lock is never taken while it is held.** -/
theorem System.never_spins (hS : S.Orderly) (hm : m.Fits)
    (hrun : Reaches S.Step Disciplined m m') : m'.Fits ∧ m'.spins = false := by
  have hfits := hrun.invariant (I := Cpu.Fits) hm fun _ _ _ hi hd hs =>
    System.step_stacked hS hi hd hs
  exact ⟨hfits, hfits.not_spins⟩

end OSCompas.Locking
