import OSCompas.Lib.Runs
import Mathlib.Logic.Function.Basic

/-!
# Named pipes

Programs that talk through named pipes with the names `ν`, which carry messages `α`, each written
and read in one piece.

* `Prog` — a program, as a tree of its calls;
* `Pipe`, `World` — a pipe, and processes `π` with the pipes;
* `step` — the next call of a process, or its return from an open; no state when it blocks;
* `Stuck` — every process has exited or is blocked.

An open takes effect for others when it is called, and returns when the other end has been opened.

Principal results: `step_frame` and `stuck_of_opening`.
-/

set_option autoImplicit false

namespace OSCompas.NamedPipe

open Function

/-- A program; an open reports whether there is such a pipe, a read reports the end of the file by
`none`. -/
inductive Prog (ν α : Type) where
  | exit (code : Int)
  | openRead (f : ν) (k : Bool → Prog ν α)
  | openWrite (f : ν) (k : Bool → Prog ν α)
  | read (f : ν) (k : Option α → Prog ν α)
  | write (f : ν) (a : α) (k : Prog ν α)
  | closeRead (f : ν) (k : Prog ν α)
  | closeWrite (f : ν) (k : Prog ν α)
  | unlink (f : ν) (k : Prog ν α)

/-- Where a process is. -/
inductive Control (ν α : Type) where
  | running (p : Prog ν α)
  /-- In an open for reading, called when the write end had been opened so many times. -/
  | openingRead (f : ν) (seen : Nat) (k : Prog ν α)
  /-- In an open for writing, called when the read end had been opened so many times. -/
  | openingWrite (f : ν) (seen : Nat) (k : Prog ν α)
  | exited

/-- A process, with what it has read and written so far. -/
structure Process (ν α : Type) where
  control : Control ν α
  received : List α
  sent : List α

/-- A pipe: whether its name is there, the open descriptors at its ends, how often the ends have
been opened, and what is in it. -/
structure Pipe (α : Type) where
  linked : Bool
  readers : Nat
  writers : Nat
  readerOpens : Nat
  writerOpens : Nat
  data : List α

/-- A pipe that has just been made. -/
def Pipe.made {α : Type} : Pipe α := ⟨true, 0, 0, 0, 0, []⟩

structure World (ν α π : Type) where
  pipes : ν → Pipe α
  processes : π → Process ν α

variable {ν α π : Type} [DecidableEq ν] [DecidableEq π]

/-- A process that starts. -/
def Process.start (p : Prog ν α) : Process ν α := ⟨.running p, [], []⟩

/-- What a call does to its pipe and to the process; nothing while it blocks. -/
def Process.step (capacity : Nat) (pipes : ν → Pipe α) (c : Process ν α) :
    Option ((ν → Pipe α) × Process ν α) :=
  match c.control with
  | .running (.openRead f k) =>
    if (pipes f).linked then
      some (update pipes f { pipes f with
          readers := (pipes f).readers + 1, readerOpens := (pipes f).readerOpens + 1 },
        { c with control := .openingRead f (pipes f).writerOpens (k true) })
    else some (pipes, { c with control := .running (k false) })
  | .openingRead f seen k =>
    if 0 < (pipes f).writers ∨ (pipes f).writerOpens ≠ seen then
      some (pipes, { c with control := .running k })
    else none
  | .running (.openWrite f k) =>
    if (pipes f).linked then
      some (update pipes f { pipes f with
          writers := (pipes f).writers + 1, writerOpens := (pipes f).writerOpens + 1 },
        { c with control := .openingWrite f (pipes f).readerOpens (k true) })
    else some (pipes, { c with control := .running (k false) })
  | .openingWrite f seen k =>
    if 0 < (pipes f).readers ∨ (pipes f).readerOpens ≠ seen then
      some (pipes, { c with control := .running k })
    else none
  | .running (.read f k) =>
    match (pipes f).data with
    | a :: data => some (update pipes f { pipes f with data },
        { c with control := .running (k (some a)), received := c.received ++ [a] })
    | [] =>
      if (pipes f).writers = 0 then some (pipes, { c with control := .running (k none) }) else none
  | .running (.write f a k) =>
    -- without a reader the signal ends the process
    if (pipes f).readers = 0 then some (pipes, { c with control := .exited })
    else if (pipes f).data.length < capacity then
      some (update pipes f { pipes f with data := (pipes f).data ++ [a] },
        { c with control := .running k, sent := c.sent ++ [a] })
    else none
  | .running (.closeRead f k) =>
    some (update pipes f { pipes f with readers := (pipes f).readers - 1 },
      { c with control := .running k })
  | .running (.closeWrite f k) =>
    some (update pipes f { pipes f with writers := (pipes f).writers - 1 },
      { c with control := .running k })
  | .running (.unlink f k) =>
    some (update pipes f { pipes f with linked := false }, { c with control := .running k })
  | .running (.exit _) => some (pipes, { c with control := .exited })
  | .exited => none

/-- One step of one process. -/
def step (capacity : Nat) (w : World ν α π) (i : π) : Option (World ν α π) :=
  ((w.processes i).step capacity w.pipes).map fun q => ⟨q.1, update w.processes i q.2⟩

def Step (capacity : Nat) (w : World ν α π) (i : π) (w' : World ν α π) : Prop :=
  step capacity w i = some w'

/-- Nobody can take a step. -/
def Stuck (capacity : Nat) (w : World ν α π) : Prop := ∀ i, step capacity w i = none

/-- Every process has exited. -/
def Finished (w : World ν α π) : Prop := ∀ i, (w.processes i).control = .exited

variable {capacity : Nat} {w w' : World ν α π} {i j : π}

/-- A step of one process leaves the others where they are. -/
theorem step_frame (h : Step capacity w i w') (hj : j ≠ i) : w'.processes j = w.processes j := by
  obtain ⟨q, -, rfl⟩ := Option.map_eq_some_iff.mp h
  exact update_of_ne hj _ _

/-- Opening a pipe for reading takes effect at once, and does not return yet. -/
theorem step_openRead (capacity : Nat) {f : ν} {k : Bool → Prog ν α} {received sent : List α}
    (hc : w.processes i = ⟨.running (.openRead f k), received, sent⟩)
    (hl : (w.pipes f).linked = true) :
    ∃ w', Step capacity w i w' ∧
      w'.processes i = ⟨.openingRead f (w.pipes f).writerOpens (k true), received, sent⟩ ∧
      w'.pipes = update w.pipes f { w.pipes f with
        readers := (w.pipes f).readers + 1, readerOpens := (w.pipes f).readerOpens + 1 } := by
  refine ⟨⟨update w.pipes f _, update w.processes i _⟩, ?_, update_self .., rfl⟩
  simp [Step, step, Process.step, hc, hl]

theorem step_openWrite (capacity : Nat) {f : ν} {k : Bool → Prog ν α} {received sent : List α}
    (hc : w.processes i = ⟨.running (.openWrite f k), received, sent⟩)
    (hl : (w.pipes f).linked = true) :
    ∃ w', Step capacity w i w' ∧
      w'.processes i = ⟨.openingWrite f (w.pipes f).readerOpens (k true), received, sent⟩ ∧
      w'.pipes = update w.pipes f { w.pipes f with
        writers := (w.pipes f).writers + 1, writerOpens := (w.pipes f).writerOpens + 1 } := by
  refine ⟨⟨update w.pipes f _, update w.processes i _⟩, ?_, update_self .., rfl⟩
  simp [Step, step, Process.step, hc, hl]

/-- A process in an open whose other end is closed, and has been since the call. -/
def Blocked (pipes : ν → Pipe α) : Control ν α → Prop
  | .openingRead f seen _ => (pipes f).writers = 0 ∧ (pipes f).writerOpens = seen
  | .openingWrite f seen _ => (pipes f).readers = 0 ∧ (pipes f).readerOpens = seen
  | _ => False

theorem step_of_blocked (h : Blocked w.pipes (w.processes i).control) :
    step capacity w i = none := by
  have hnone : (w.processes i).step capacity w.pipes = none := by
    cases hc : (w.processes i).control with
    | running p =>
      rw [hc] at h
      exact h.elim
    | openingRead f seen k =>
      rw [hc] at h
      obtain ⟨h0, hseen⟩ := h
      simp [Process.step, hc, h0, hseen]
    | openingWrite f seen k =>
      rw [hc] at h
      obtain ⟨h0, hseen⟩ := h
      simp [Process.step, hc, h0, hseen]
    | exited =>
      rw [hc] at h
      exact h.elim
  rw [step, hnone]
  rfl

/-- **When everybody waits in an open for an end that nobody opens, nobody goes on.** -/
theorem stuck_of_opening (h : ∀ i, Blocked w.pipes (w.processes i).control) : Stuck capacity w :=
  fun i => step_of_blocked (h i)

end OSCompas.NamedPipe
