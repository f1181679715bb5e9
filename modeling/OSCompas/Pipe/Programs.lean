import OSCompas.Lib.NamedPipe

/-!
# The pipe pair (`lab4-2-user-interrupt/src/pipe_server.c` and `pipe_client.c`)

* `server`, `client` — the calls of the two `main`s, from the opens on;
* `Communicates` — no state short of the end is stuck, and every response is 100 times its request.

The server opens its first pipe for reading and the client the other one for writing, so that each
waits for an end that the other would open later.

Principal result: `never_communicates`.
-/

set_option autoImplicit false

namespace OSCompas.PipePair

open NamedPipe Runs Function

/-! ## The programs -/

/-- `/tmp/pipe_server_read_<pid>` and `/tmp/pipe_server_write_<pid>`. -/
inductive Fifo
  | pipeServerRead
  | pipeServerWrite
  deriving DecidableEq

/-- An `int`. -/
abbrev Word := BitVec 32

abbrev Prog := NamedPipe.Prog Fifo Word

/-- The end of `main` in `pipe_server.c`. -/
def serverEnd : Prog :=
  .closeRead .pipeServerRead <| .closeWrite .pipeServerWrite <|
    .unlink .pipeServerRead <| .unlink .pipeServerWrite <| .exit 0

/-- The loop of `pipe_server.c`, with so many turns left. -/
def serverLoop : Nat → Prog
  | 0 => serverEnd
  | left + 1 =>
    .read .pipeServerRead fun
      | none => serverEnd
      | some request => .write .pipeServerWrite (request * 100#32) (serverLoop left)

/-- `main` of `pipe_server.c`, from the opens on. -/
def server (iterations : Nat) : Prog :=
  .openRead .pipeServerRead fun
    | false => .unlink .pipeServerRead <| .unlink .pipeServerWrite <| .exit 1
    | true =>
      .openWrite .pipeServerWrite fun
        | false =>
          .closeRead .pipeServerRead <| .unlink .pipeServerRead <| .unlink .pipeServerWrite <|
            .exit 1
        | true => serverLoop iterations

/-- The end of `main` in `pipe_client.c`. -/
def clientEnd : Prog := .closeRead .pipeServerRead <| .closeWrite .pipeServerWrite <| .exit 0

/-- The loop of `pipe_client.c`: the turn `i`, and how many are left with it. -/
def clientLoop : Nat → Nat → Prog
  | _, 0 => clientEnd
  | i, left + 1 =>
    .write .pipeServerWrite (BitVec.ofNat 32 i) <|
      .read .pipeServerRead fun
        | none => clientEnd
        | some _ => clientLoop (i + 1) left

/-- `main` of `pipe_client.c`, from the opens on. -/
def client (iterations : Nat) : Prog :=
  .openWrite .pipeServerWrite fun
    | false => .exit 1
    | true =>
      .openRead .pipeServerRead fun
        | false => .closeWrite .pipeServerWrite <| .exit 1
        | true => clientLoop 1 iterations

/-- The two processes. -/
inductive Side
  | server
  | client
  deriving DecidableEq

abbrev World := NamedPipe.World Fifo Word Side

/-- The pipes have been made, and both programs have the same number of iterations. -/
def World.start (iterations : Nat) : World where
  pipes := fun _ => .made
  processes := fun
    | .server => .start (server iterations)
    | .client => .start (client iterations)

variable {capacity iterations : Nat} {w w' : World} {i : Side}

/-! ## The property -/

/-- No state short of the end is stuck, and the `i`-th response is 100 times the `i`-th request. -/
structure Communicates (capacity iterations : Nat) : Prop where
  live : ∀ w, Reaches (Step capacity) anyAction (World.start iterations) w → ¬ Finished w →
    ∃ i w', Step capacity w i w'
  paired : ∀ w, Reaches (Step capacity) anyAction (World.start iterations) w →
    ∀ (i : Nat) (response : Word),
    (w.processes .client).received[i]? = some response →
    ∃ request, (w.processes .client).sent[i]? = some request ∧ response = request * 100#32

/-! ## The opens -/

/-- Each side is before its first open or in it, and nobody has opened the other end of either
pipe. -/
structure Apart (iterations : Nat) (w : World) : Prop where
  server : w.processes .server = .start (server iterations) ∨
    ∃ k, w.processes .server = ⟨.openingRead .pipeServerRead 0 k, [], []⟩
  client : w.processes .client = .start (client iterations) ∨
    ∃ k, w.processes .client = ⟨.openingWrite .pipeServerWrite 0 k, [], []⟩
  noWriter : (w.pipes .pipeServerRead).writers = 0 ∧ (w.pipes .pipeServerRead).writerOpens = 0
  noReader : (w.pipes .pipeServerWrite).readers = 0 ∧ (w.pipes .pipeServerWrite).readerOpens = 0
  linked : ∀ f, (w.pipes f).linked = true

theorem start_apart (iterations : Nat) : Apart iterations (World.start iterations) :=
  ⟨.inl rfl, .inl rfl, ⟨rfl, rfl⟩, ⟨rfl, rfl⟩, fun _ => rfl⟩

/-- The server in its open waits. -/
theorem Apart.server_blocked (h : Apart iterations w) {k : Prog}
    (hk : w.processes .server = ⟨.openingRead .pipeServerRead 0 k, [], []⟩) :
    Blocked w.pipes (w.processes .server).control := by
  rw [hk]
  exact h.noWriter

theorem Apart.client_blocked (h : Apart iterations w) {k : Prog}
    (hk : w.processes .client = ⟨.openingWrite .pipeServerWrite 0 k, [], []⟩) :
    Blocked w.pipes (w.processes .client).control := by
  rw [hk]
  exact h.noReader

/-- The call of the server's first open. -/
theorem step_server (capacity : Nat) (h : Apart iterations w)
    (hs : w.processes .server = .start (server iterations)) :
    ∃ w', Step capacity w .server w' ∧ Apart iterations w' ∧
      w'.processes .client = w.processes .client ∧
      ∃ k, w'.processes .server = ⟨.openingRead .pipeServerRead 0 k, [], []⟩ := by
  obtain ⟨w', hstep, hserver, hpipes⟩ :=
    step_openRead capacity hs (h.linked .pipeServerRead)
  rw [h.noWriter.2] at hserver
  have hclient := step_frame hstep (show Side.client ≠ Side.server by decide)
  refine ⟨w', hstep, ⟨.inr ⟨_, hserver⟩, ?_, ?_, ?_, ?_⟩, hclient, _, hserver⟩
  · rw [hclient]
    exact h.client
  · simpa [hpipes] using h.noWriter
  · simpa [hpipes] using h.noReader
  · intro f
    cases f with
    | pipeServerRead => simpa [hpipes] using h.linked .pipeServerRead
    | pipeServerWrite => simpa [hpipes] using h.linked .pipeServerWrite

/-- The call of the client's first open. -/
theorem step_client (capacity : Nat) (h : Apart iterations w)
    (hs : w.processes .client = .start (client iterations)) :
    ∃ w', Step capacity w .client w' ∧ Apart iterations w' ∧
      w'.processes .server = w.processes .server ∧
      ∃ k, w'.processes .client = ⟨.openingWrite .pipeServerWrite 0 k, [], []⟩ := by
  obtain ⟨w', hstep, hclient, hpipes⟩ :=
    step_openWrite capacity hs (h.linked .pipeServerWrite)
  rw [h.noReader.2] at hclient
  have hserver := step_frame hstep (show Side.server ≠ Side.client by decide)
  refine ⟨w', hstep, ⟨?_, .inr ⟨_, hclient⟩, ?_, ?_, ?_⟩, hserver, _, hclient⟩
  · rw [hserver]
    exact h.server
  · simpa [hpipes] using h.noWriter
  · simpa [hpipes] using h.noReader
  · intro f
    cases f with
    | pipeServerRead => simpa [hpipes] using h.linked .pipeServerRead
    | pipeServerWrite => simpa [hpipes] using h.linked .pipeServerWrite

/-- Both sides call their first open, and wait. -/
theorem reaches_stuck (capacity iterations : Nat) :
    ∃ w, Reaches (Step capacity) anyAction (World.start iterations) w ∧ Stuck capacity w ∧
      ¬ Finished w := by
  obtain ⟨w₁, hs₁, h₁, hclient, k₁, hk₁⟩ := step_server capacity (start_apart iterations) rfl
  obtain ⟨w₂, hs₂, h₂, hserver, k₂, hk₂⟩ := step_client capacity h₁ hclient
  rw [hk₁] at hserver
  refine ⟨w₂, (Reaches.refl.step trivial hs₁).step trivial hs₂, stuck_of_opening ?_, ?_⟩
  · rintro (_ | _)
    · exact h₂.server_blocked hserver
    · exact h₂.client_blocked hk₂
  · intro hfin
    have hexit := hfin .server
    rw [hserver] at hexit
    cases hexit

/-- **For no number of iterations do the two communicate.** -/
theorem never_communicates (capacity iterations : Nat) : ¬ Communicates capacity iterations := by
  intro h
  obtain ⟨w, hrun, hstuck, hopen⟩ := reaches_stuck capacity iterations
  obtain ⟨i, w', hs⟩ := h.live w hrun hopen
  cases (hstuck i).symm.trans hs

/-- The default of ten iterations, over pipes that hold 16384 numbers. -/
theorem not_always_communicate : ¬ ∀ capacity iterations, 0 < capacity →
    Communicates capacity iterations := by
  intro hall
  obtain ⟨w, hrun, hstuck, hopen⟩ := reaches_stuck 16384 10
  obtain ⟨i, w', hs⟩ := (hall 16384 10 (by decide)).live w hrun hopen
  cases (hstuck i).symm.trans hs

end OSCompas.PipePair
