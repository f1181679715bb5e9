import OSCompas.Lib.Progress
import Mathlib

/-!
# User interrupts between two processes

`uintr_server.c` and `uintr_client.c`: the client writes a message to shared memory, clears
`response`, sets `ready` and sends a user interrupt; the server's handler counts it and sets
`response`, for which the client waits. The main loop of the server watches `ready` beside that
and counts the requests it sees, up to its `iterations`.

Every access to the shared memory is a step, so the client, the main loop and the handler
interleave between any two of them. Sending an interrupt posts one bit, which is delivered when
the server is not in its handler; the handler returns to where the main loop was. Behind its loop
the server detaches the memory and only then gives its handler up, so a handler that runs in
between faults.

* `Shared`, `MainPc`, `HandlerPc`, `ClientPc` — the data, and where the three codes are;
* `State.step` — their steps;
* `Quiet`, `Good` — what holds of the interrupt while the client is at each place.

Principal results: `responses_eq` and `handled_eq` (every request is answered once, in order, with
its own number and under its own message), `request_answered`, `seen_le` (the server's own count
never exceeds the requests made), `seen_any` (it can be any smaller number) and `detached_strands`.
-/

set_option autoImplicit false

namespace OSCompas.Uintr

open Progress

/-! ## The source -/

/-- The fields of `shared_data_t`. -/
structure Shared where
  vector : Int32
  ready : Int32
  message : String
  response : Int32

/-- The `iterations` of the server. -/
def iterations : Nat := 10

/-- Where the main loop of the server is. -/
inductive MainPc where
  /-- About to write the vector. -/
  | vector
  | reset
  | wait
  | count
  | limit
  | sleep
  /-- Behind the loop, in `cleanup`. -/
  | detach
  /-- The memory is detached; the handler is still registered. -/
  | unregister
  | exited
  /-- The handler has touched the memory that is not there any more. -/
  | killed
  deriving DecidableEq

/-- The server has left its loop. -/
def MainPc.behind : MainPc → Bool
  | .detach | .unregister | .exited | .killed => true
  | _ => false

/-- The shared memory is detached. -/
def MainPc.detached : MainPc → Bool
  | .unregister | .exited | .killed => true
  | _ => false

theorem MainPc.behind_of_detached {main : MainPc} (h : main.detached = true) :
    main.behind = true := by
  cases main with
  | unregister | exited | killed => rfl
  | vector | reset | wait | count | limit | sleep | detach => cases h

/-- Where `uintr_handler` is. -/
inductive HandlerPc where
  | count
  | print
  | respond
  deriving DecidableEq

/-- Where the client is, and with which `i`. -/
inductive ClientPc where
  | vector
  /-- The test of the `for` loop. -/
  | loop (i : Nat)
  | message (i : Nat)
  | response (i : Nat)
  | ready (i : Nat)
  | send (i : Nat)
  | wait (i : Nat)
  | report (i : Nat)
  | clear (i : Nat)
  | finished
  deriving DecidableEq

/-- The interrupt: whether it is posted, where the handler is, its counter and what it printed. -/
structure Handling where
  pending : Bool
  handler : Option HandlerPc
  interruptCount : Int32
  printed : List (Int32 × String)

/-- Both processes. The last three fields are what they did: the responses the client read, how
often it set `ready`, and how often the main loop left its wait. -/
structure State where
  shared : Shared
  uintr : Handling
  main : MainPc
  benchIterations : Nat
  client : ClientPc
  responses : List Int32
  requests : Nat
  seen : Nat

/-- The text of `snprintf`. -/
def messageText (pid i : Nat) : String :=
  "Request #" ++ toString i ++ " from client " ++ toString pid

/-- A step of the main loop. -/
def State.mainStep (uipiIndex : Int32) (s : State) : State :=
  match s.main with
  | .vector => { s with shared.vector := uipiIndex, main := .reset }
  | .reset => { s with shared.ready := 0, main := .wait }
  | .wait => if s.shared.ready = 0 then s else { s with main := .count, seen := s.seen + 1 }
  | .count =>
    if 0 < s.uintr.interruptCount ∧ s.benchIterations < iterations then
      { s with benchIterations := s.benchIterations + 1, main := .limit }
    else { s with main := .limit }
  | .limit => { s with main := if iterations ≤ s.benchIterations then .detach else .sleep }
  | .sleep => { s with main := .reset }
  | .detach => { s with main := .unregister }
  | .unregister => { s with main := .exited }
  | .exited | .killed => s

/-- The handler faults, and the server is gone. -/
def State.fault (s : State) : State := { s with main := .killed, uintr.handler := none }

/-- A step of the handler, once it runs; `shared_mem` is not `NULL` when it is detached. -/
def State.handlerStep (s : State) : HandlerPc → State
  | .count =>
    { s with uintr.interruptCount := s.uintr.interruptCount + 1, uintr.handler := some .print }
  | .print =>
    if s.main.detached then s.fault
    else { s with
      uintr.printed := s.uintr.printed ++ [(s.uintr.interruptCount, s.shared.message)],
      uintr.handler := some .respond }
  | .respond =>
    if s.main.detached then s.fault
    else { s with shared.response := s.uintr.interruptCount * 100, uintr.handler := none }

/-- A step of the client; `sent` is whether `senduipi` succeeds. -/
def State.clientStep (pid total : Nat) (sent : Bool) (s : State) : State :=
  match s.client with
  | .vector => if s.shared.vector = 0 then s else { s with client := .loop 1 }
  | .loop i => { s with client := if i ≤ total then .message i else .finished }
  | .message i => { s with shared.message := messageText pid i, client := .response i }
  | .response i => { s with shared.response := 0, client := .ready i }
  | .ready i => { s with shared.ready := 1, client := .send i, requests := s.requests + 1 }
  | .send i =>
    if sent then { s with uintr.pending := true, client := .wait i }
    else { s with client := .finished }
  | .wait i => if s.shared.response = 0 then s else { s with client := .report i }
  | .report i =>
    { s with responses := s.responses ++ [s.shared.response], client := .clear i }
  | .clear i => { s with shared.ready := 0, client := .loop (i + 1) }
  | .finished => s

inductive Action where
  /-- The main loop runs, if the handler does not. -/
  | main
  /-- The handler starts, or goes on. -/
  | interrupt
  | client (sent : Bool)
  deriving DecidableEq

/-- A step of either process. -/
def State.step (uipiIndex : Int32) (pid total : Nat) (s : State) : Action → Option State
  | .main => if s.uintr.handler = none then some (s.mainStep uipiIndex) else none
  | .interrupt =>
    match s.uintr.handler with
    | some h => some (s.handlerStep h)
    | none =>
      if s.uintr.pending ∧ s.main ≠ .exited ∧ s.main ≠ .killed then
        some { s with uintr.pending := false, uintr.handler := some .count }
      else none
  | .client sent => some (s.clientStep pid total sent)

/-- The server has registered its handler, whose address it passes as an `unsigned int`, with
success; the client has attached the memory. -/
def State.initial : State where
  shared := ⟨0, 0, "", 0⟩
  uintr := ⟨false, none, 0, []⟩
  main := .vector
  benchIterations := 0
  client := .vector
  responses := []
  requests := 0
  seen := 0

/-! ## The interrupt -/

/-- What the handler prints of the first `n` requests. -/
def lines (pid n : Nat) : List (Int32 × String) :=
  (List.range n).map fun k => (Int32.ofNat (k + 1), messageText pid (k + 1))

/-- The responses to the first `n` requests. -/
def answers (n : Nat) : List Int32 := (List.range n).map fun k => Int32.ofNat (k + 1) * 100

theorem lines_succ (pid n : Nat) :
    lines pid (n + 1) = lines pid n ++ [(Int32.ofNat (n + 1), messageText pid (n + 1))] := by
  simp [lines, List.range_succ]

theorem answers_succ (n : Nat) : answers (n + 1) = answers n ++ [Int32.ofNat (n + 1) * 100] := by
  simp [answers, List.range_succ]

/-- No interrupt is on its way, and `n` have been handled. -/
def Quiet (pid n : Nat) (u : Handling) : Prop :=
  u = ⟨false, none, Int32.ofNat n, lines pid n⟩

/-- The interrupt of request `n + 1` is posted, in the handler at one of its places, or handled; or
the handler has faulted. -/
inductive Asked (pid n : Nat) : MainPc → Handling → Int32 → Prop where
  | posted {main : MainPc} : Asked pid n main ⟨true, none, Int32.ofNat n, lines pid n⟩ 0
  | counting {main : MainPc} :
      Asked pid n main ⟨false, some .count, Int32.ofNat n, lines pid n⟩ 0
  | printing {main : MainPc} :
      Asked pid n main ⟨false, some .print, Int32.ofNat (n + 1), lines pid n⟩ 0
  | responding {main : MainPc} :
      Asked pid n main ⟨false, some .respond, Int32.ofNat (n + 1), lines pid (n + 1)⟩ 0
  | answered {main : MainPc} :
      Asked pid n main ⟨false, none, Int32.ofNat (n + 1), lines pid (n + 1)⟩
        (Int32.ofNat (n + 1) * 100)
  | unprinted : Asked pid n .killed ⟨false, none, Int32.ofNat (n + 1), lines pid n⟩ 0
  | unanswered : Asked pid n .killed ⟨false, none, Int32.ofNat (n + 1), lines pid (n + 1)⟩ 0

/-- What holds of the interrupt, the message, the response and the responses read so far, by where
the client is. -/
def Good (pid : Nat) (main : MainPc) (u : Handling) (message : String) (response : Int32)
    (responses : List Int32) : ClientPc → Prop
  | .vector => Quiet pid 0 u ∧ responses = []
  | .loop i | .message i => 1 ≤ i ∧ Quiet pid (i - 1) u ∧ responses = answers (i - 1)
  | .response i => 1 ≤ i ∧ Quiet pid (i - 1) u ∧ responses = answers (i - 1) ∧
      message = messageText pid i
  | .ready i | .send i => 1 ≤ i ∧ Quiet pid (i - 1) u ∧ responses = answers (i - 1) ∧
      message = messageText pid i ∧ response = 0
  | .wait i => 1 ≤ i ∧ Asked pid (i - 1) main u response ∧ responses = answers (i - 1) ∧
      message = messageText pid i
  | .report i => 1 ≤ i ∧ Quiet pid i u ∧ responses = answers (i - 1) ∧
      response = Int32.ofNat i * 100
  | .clear i => 1 ≤ i ∧ Quiet pid i u ∧ responses = answers i
  | .finished => ∃ n, Quiet pid n u ∧ responses = answers n

/-- The invariant. -/
def State.Good (pid : Nat) (s : State) : Prop :=
  Uintr.Good pid s.main s.uintr s.shared.message s.shared.response s.responses s.client

variable {uipiIndex : Int32} {pid total : Nat} {s t : State} {a : Action} {as : List Action}

/-- The main loop leaves the interrupt, the client and its part of the memory alone. -/
theorem mainStep_frame (uipiIndex : Int32) (s : State) :
    (s.mainStep uipiIndex).uintr = s.uintr ∧ (s.mainStep uipiIndex).client = s.client ∧
      (s.mainStep uipiIndex).shared.message = s.shared.message ∧
      (s.mainStep uipiIndex).shared.response = s.shared.response ∧
      (s.mainStep uipiIndex).responses = s.responses ∧
      (s.mainStep uipiIndex).requests = s.requests := by
  unfold State.mainStep
  split <;> (try split) <;> exact ⟨rfl, rfl, rfl, rfl, rfl, rfl⟩

theorem mainStep_killed (h : s.main = .killed) : (s.mainStep uipiIndex).main = .killed := by
  unfold State.mainStep
  rw [h]
  exact h

/-- Where the main loop goes makes no difference, unless the server is gone. -/
theorem Good.main {main main' : MainPc} {u : Handling} {message : String} {response : Int32}
    {responses : List Int32} {pc : ClientPc}
    (h : Good pid main u message response responses pc)
    (hk : main = .killed → main' = .killed) : Good pid main' u message response responses pc := by
  cases pc with
  | wait i =>
    obtain ⟨hi, ha, hr, hm⟩ := h
    refine ⟨hi, ?_, hr, hm⟩
    cases ha with
    | posted => exact .posted
    | counting => exact .counting
    | printing => exact .printing
    | responding => exact .responding
    | answered => exact .answered
    | unprinted => exact hk rfl ▸ .unprinted
    | unanswered => exact hk rfl ▸ .unanswered
  | _ => exact h

/-- **The handler runs only for a request, and prints and answers that one.** -/
theorem State.Good.interrupt (h : s.Good pid)
    (ht : s.step uipiIndex pid total .interrupt = some t) : t.Good pid := by
  obtain ⟨⟨vector, ready, message, response⟩, u, main, bench, client, responses, requests, seen⟩ :=
    s
  have quiet {n : Nat} (hq : Quiet pid n u) : False := by
    obtain rfl := hq
    simp [State.step] at ht
  cases client with
  | wait i =>
    obtain ⟨hi, ha, hr, hm⟩ := h
    obtain ⟨n, rfl⟩ : ∃ n, i = n + 1 := ⟨i - 1, by omega⟩
    cases ha with
    | posted =>
      simp only [State.step] at ht
      split at ht
      · cases ht
        exact ⟨hi, .counting, hr, hm⟩
      · cases ht
    | counting =>
      cases ht
      have hstep : Asked pid n main ⟨false, some .print, Int32.ofNat n + 1, lines pid n⟩ 0 := by
        rw [show Int32.ofNat n + 1 = Int32.ofNat (n + 1) from (Int32.ofNat_add n 1).symm]
        exact .printing
      exact ⟨hi, hstep, hr, hm⟩
    | printing =>
      simp only [State.step, State.handlerStep, Option.some.injEq] at ht
      subst ht
      split
      · exact ⟨hi, .unprinted, hr, hm⟩
      · have hstep : Asked pid n main ⟨false, some .respond, Int32.ofNat (n + 1),
            lines pid n ++ [(Int32.ofNat (n + 1), message)]⟩ 0 := by
          rw [show message = messageText pid (n + 1) from hm, ← lines_succ]
          exact .responding
        exact ⟨hi, hstep, hr, hm⟩
    | responding =>
      simp only [State.step, State.handlerStep, Option.some.injEq] at ht
      subst ht
      split
      · exact ⟨hi, .unanswered, hr, hm⟩
      · exact ⟨hi, .answered, hr, hm⟩
    | answered | unprinted | unanswered => simp [State.step] at ht
  | vector => exact (quiet h.1).elim
  | finished =>
    obtain ⟨n, hq, -⟩ := h
    exact (quiet hq).elim
  | _ => exact (quiet h.2.1).elim

/-- **The client sends a request only when the one before it has been handled.** -/
theorem State.Good.client (h : s.Good pid) (sent : Bool) :
    (s.clientStep pid total sent).Good pid := by
  obtain ⟨⟨vector, ready, message, response⟩, u, main, bench, client, responses, requests, seen⟩ :=
    s
  cases client with
  | vector =>
    simp only [clientStep]
    split
    · exact h
    · exact ⟨Nat.le_refl 1, h.1, h.2⟩
  | loop i =>
    simp only [clientStep]
    split
    · exact h
    · exact ⟨i - 1, h.2⟩
  | message i => exact ⟨h.1, h.2.1, h.2.2, rfl⟩
  | response i => exact ⟨h.1, h.2.1, h.2.2.1, h.2.2.2, rfl⟩
  | ready i => exact h
  | send i =>
    obtain ⟨hi, hq, hr, hm, h0⟩ := h
    simp only [clientStep]
    split
    · obtain rfl := hq
      obtain rfl : response = 0 := h0
      exact ⟨hi, .posted, hr, hm⟩
    · exact ⟨i - 1, hq, hr⟩
  | wait i =>
    obtain ⟨hi, ha, hr, hm⟩ := h
    obtain ⟨n, rfl⟩ : ∃ n, i = n + 1 := ⟨i - 1, by omega⟩
    simp only [clientStep]
    split
    · exact ⟨hi, ha, hr, hm⟩
    · rename_i hne
      cases ha with
      | answered => exact ⟨hi, rfl, hr, rfl⟩
      | _ => exact absurd rfl hne
  | report i =>
    obtain ⟨hi, hq, hr, hresp⟩ := h
    obtain ⟨n, rfl⟩ : ∃ n, i = n + 1 := ⟨i - 1, by omega⟩
    obtain rfl : response = Int32.ofNat (n + 1) * 100 := hresp
    obtain rfl : responses = answers n := hr
    exact ⟨hi, hq, (answers_succ n).symm⟩
  | clear i => exact ⟨by omega, h.2.1, h.2.2⟩
  | finished => exact h

theorem State.Good.step (h : s.Good pid) (ht : s.step uipiIndex pid total a = some t) :
    t.Good pid := by
  cases a with
  | main =>
    simp only [State.step] at ht
    split at ht
    · obtain rfl := Option.some.inj ht
      obtain ⟨hu, hc, hm, hr, hl, -⟩ := mainStep_frame uipiIndex s
      unfold State.Good
      rw [hu, hc, hm, hr, hl]
      exact Good.main h mainStep_killed
    · cases ht
  | interrupt => exact h.interrupt ht
  | client sent =>
    obtain rfl := Option.some.inj ht
    exact h.client sent

theorem good_run (h : as.foldlM (State.step uipiIndex pid total) .initial = some s) :
    s.Good pid :=
  invariant_foldlM (fun _ _ _ => State.Good.step)
    (show State.initial.Good pid from ⟨rfl, rfl⟩) h

/-- The first request, from the start to its end. -/
def firstRequest : List Action :=
  .main :: .client true :: (List.replicate 5 (.client true) ++ (List.replicate 4 .interrupt ++
    List.replicate 3 (.client true)))

theorem answers_length (n : Nat) : (answers n).length = n := by simp [answers]

/-- The numbers of requests that were handled and whose responses were read. -/
theorem State.Good.counts (h : s.Good pid) : ∃ n m, s.responses = answers n ∧
    s.uintr.printed = lines pid m ∧ n ≤ m ∧ m ≤ n + 1 := by
  unfold State.Good at h
  cases hc : s.client with
  | vector =>
    rw [hc] at h
    exact ⟨0, 0, h.2, by rw [h.1], Nat.le_refl 0, Nat.zero_le 1⟩
  | loop i | message i =>
    rw [hc] at h
    exact ⟨i - 1, i - 1, h.2.2, by rw [h.2.1], by omega, by omega⟩
  | response i | ready i | send i =>
    rw [hc] at h
    exact ⟨i - 1, i - 1, h.2.2.1, by rw [h.2.1], by omega, by omega⟩
  | wait i =>
    rw [hc] at h
    obtain ⟨hi, ha, hr, -⟩ := h
    refine ⟨i - 1, ?_⟩
    generalize s.uintr = u at ha ⊢
    generalize s.shared.response = r at ha
    generalize s.main = main at ha
    cases ha with
    | posted | counting | printing | unprinted => exact ⟨i - 1, hr, rfl, by omega, by omega⟩
    | responding | answered | unanswered =>
      exact ⟨i - 1 + 1, hr, rfl, by omega, by omega⟩
  | report i =>
    rw [hc] at h
    exact ⟨i - 1, i, h.2.2.1, by rw [h.2.1], by omega, by omega⟩
  | clear i =>
    rw [hc] at h
    exact ⟨i, i, h.2.2, by rw [h.2.1], by omega, by omega⟩
  | finished =>
    rw [hc] at h
    obtain ⟨n, hq, hr⟩ := h
    exact ⟨n, n, hr, by rw [hq], by omega, by omega⟩

/-- **A request that waits is answered by four steps of the handler at most**, as long as the
server has not detached its memory. -/
theorem request_answered (h : as.foldlM (State.step uipiIndex pid total) .initial = some s)
    {i : Nat} (hw : s.client = .wait i) (hm : s.main.detached = false) : ∃ k ≤ 4, ∃ t,
      (List.replicate k .interrupt).foldlM (State.step uipiIndex pid total) s = some t ∧
        t.shared.response = Int32.ofNat i * 100 ∧ t.client = .wait i := by
  have hg := good_run h
  obtain ⟨⟨vector, ready, message, response⟩, u, main, bench, client, responses, requests, seen⟩ :=
    s
  obtain rfl : client = .wait i := hw
  obtain ⟨hi, ha, -, -⟩ := hg
  obtain ⟨n, rfl⟩ : ∃ n, i = n + 1 := ⟨i - 1, by omega⟩
  have hlive : main ≠ .exited ∧ main ≠ .killed := by
    constructor <;> rintro rfl <;> cases hm
  have hm : main.detached = false := hm
  cases ha with
  | posted =>
    exact ⟨4, Nat.le_refl 4, by simp [List.replicate, State.step, State.handlerStep, hlive, hm]⟩
  | counting => exact ⟨3, by omega, by simp [List.replicate, State.step, State.handlerStep, hm]⟩
  | printing => exact ⟨2, by omega, by simp [List.replicate, State.step, State.handlerStep, hm]⟩
  | responding => exact ⟨1, by omega, by simp [List.replicate, State.step, State.handlerStep, hm]⟩
  | answered => exact ⟨0, by omega, _, rfl, rfl, rfl⟩
  | unprinted | unanswered => cases hm

/-- The interrupt of the first request has been posted. -/
theorem request_answered_first : ∃ s, (firstRequest.take 7).foldlM (State.step 1 7 10) .initial =
    some s ∧ ∃ k ≤ 4, ∃ t, (List.replicate k .interrupt).foldlM (State.step 1 7 10) s = some t ∧
      t.shared.response = Int32.ofNat 1 * 100 ∧ t.client = .wait 1 := by
  have h : ((firstRequest.take 7).foldlM (State.step 1 7 10) .initial).map
      (fun s => (s.client, s.main)) = some (.wait 1, .reset) := by
    decide +kernel
  obtain ⟨s, hs, h⟩ := Option.map_eq_some_iff.mp h
  have hw : s.client = .wait 1 := congrArg Prod.fst h
  have hm : s.main = .reset := congrArg Prod.snd h
  exact ⟨s, hs, request_answered hs hw (by rw [hm]; rfl)⟩

/-! ## The server's own count -/

/-- The main loop counts a request at most once: it leaves its wait at most once for each time the
client sets `ready`, and counts at most once for each time it leaves. -/
structure Counted (s : State) : Prop where
  seen : s.seen ≤ s.requests
  waiting : s.main = .wait → s.shared.ready ≠ 0 → s.seen < s.requests
  count : s.benchIterations ≤ s.seen
  counting : s.main = .count → s.benchIterations < s.seen
  behind : s.main.behind = true → iterations ≤ s.benchIterations

theorem Counted.main (h : Counted s) : Counted (s.mainStep uipiIndex) := by
  obtain ⟨hs, hw, hb, hc, he⟩ := h
  unfold State.mainStep
  split
  · exact ⟨hs, nofun, hb, nofun, nofun⟩
  · exact ⟨hs, fun _ h => absurd rfl h, hb, nofun, nofun⟩
  · rename_i hmain
    split
    · exact ⟨hs, hw, hb, hc, he⟩
    · rename_i hready
      exact ⟨hw hmain hready, nofun, Nat.le_succ_of_le hb, fun _ => Nat.lt_succ_of_le hb, nofun⟩
  · rename_i hmain
    split
    · exact ⟨hs, nofun, hc hmain, nofun, nofun⟩
    · exact ⟨hs, nofun, hb, nofun, nofun⟩
  · split
    · rename_i hlimit
      exact ⟨hs, nofun, hb, nofun, fun _ => hlimit⟩
    · exact ⟨hs, nofun, hb, nofun, nofun⟩
  · exact ⟨hs, nofun, hb, nofun, nofun⟩
  · rename_i hmain
    exact ⟨hs, nofun, hb, nofun, fun _ => he (by rw [hmain]; rfl)⟩
  · rename_i hmain
    exact ⟨hs, nofun, hb, nofun, fun _ => he (by rw [hmain]; rfl)⟩
  · exact ⟨hs, hw, hb, hc, he⟩
  · exact ⟨hs, hw, hb, hc, he⟩

theorem Counted.client (h : Counted s) (sent : Bool) :
    Counted (s.clientStep pid total sent) := by
  obtain ⟨hs, hw, hb, hc, he⟩ := h
  unfold State.clientStep
  split
  case h_5 =>
    exact ⟨Nat.le_succ_of_le hs, fun _ _ => Nat.lt_succ_of_le hs, hb, hc, he⟩
  case h_9 => exact ⟨hs, fun _ h => absurd rfl h, hb, hc, he⟩
  all_goals (try split) <;> exact ⟨hs, hw, hb, hc, he⟩

theorem Counted.step (h : Counted s) (ht : s.step uipiIndex pid total a = some t) :
    Counted t := by
  cases a with
  | main =>
    simp only [State.step] at ht
    split at ht
    · obtain rfl := Option.some.inj ht
      exact h.main
    · cases ht
  | interrupt =>
    simp only [State.step] at ht
    split at ht
    · rename_i hpc _
      obtain rfl := Option.some.inj ht
      have hfault (hd : s.main.detached = true) : Counted s.fault :=
        ⟨h.seen, nofun, h.count, nofun, fun _ => h.behind (MainPc.behind_of_detached hd)⟩
      cases hpc with
      | count => exact ⟨h.seen, h.waiting, h.count, h.counting, h.behind⟩
      | print | respond =>
        simp only [State.handlerStep]
        split
        · rename_i hd
          exact hfault hd
        · exact ⟨h.seen, h.waiting, h.count, h.counting, h.behind⟩
    · split at ht
      · obtain rfl := Option.some.inj ht
        exact ⟨h.seen, h.waiting, h.count, h.counting, h.behind⟩
      · cases ht
  | client sent =>
    obtain rfl := Option.some.inj ht
    exact h.client sent

/-- **The server never counts a request twice**: it counts at most as many as were made, so when it
has left its loop, `ready` has been set at least `iterations` times. -/
theorem seen_le (h : as.foldlM (State.step uipiIndex pid total) .initial = some s) :
    s.benchIterations ≤ s.requests ∧ (s.main.behind = true → iterations ≤ s.requests) := by
  have hc : Counted s := invariant_foldlM (fun _ _ _ => Counted.step)
    (show Counted .initial from ⟨Nat.le_refl 0, nofun, Nat.le_refl 0, nofun, nofun⟩) h
  have hle : s.benchIterations ≤ s.requests := Nat.le_trans hc.count hc.seen
  exact ⟨hle, fun he => Nat.le_trans (hc.behind he) hle⟩

theorem seen_le_first : ∃ s, firstRequest.foldlM (State.step 1 7 10) .initial = some s ∧
    s.benchIterations ≤ s.requests ∧ (s.main.behind = true → iterations ≤ s.requests) := by
  obtain ⟨s, hs⟩ : ∃ s, firstRequest.foldlM (State.step 1 7 10) .initial = some s := ⟨_, rfl⟩
  exact ⟨s, hs, seen_le hs⟩

/-- Between two requests: the client is about to make request `n + 1`, the main loop is at its
start and has counted `b`. -/
def between (uipiIndex : Int32) (pid : Nat) (message : String) (response : Int32) (n b : Nat) :
    State :=
  ⟨⟨uipiIndex, 0, message, response⟩, ⟨false, none, Int32.ofNat n, lines pid n⟩, .reset, b,
    .loop (n + 1), answers n, n, b⟩

/-- The client's part of a request up to the interrupt. -/
def ask : List Action := List.replicate 5 (.client true)

/-- The handler's part. -/
def handle : List Action := List.replicate 4 .interrupt

/-- The client's part behind the response. -/
def take : List Action := List.replicate 3 (.client true)

/-- A request that the main loop sees, or sleeps through. -/
def round (counted : Bool) : List Action :=
  if counted then .main :: (ask ++ (handle ++ ([.main, .main, .main, .main] ++ take)))
  else ask ++ (handle ++ take)

theorem answer_ne_zero {n : Nat} (h : n * 100 < 2 ^ 31) (hn : n ≠ 0) : Int32.ofNat n * 100 ≠ 0 := by
  rw [show (100 : Int32) = Int32.ofNat 100 from rfl, ← Int32.ofNat_mul]
  intro h0
  have := congrArg Int32.toInt h0
  rw [Int32.toInt_ofNat_of_lt h] at this
  have h0 : n * 100 = 0 := Int.ofNat_eq_zero.mp this
  omega

theorem count_pos {n : Nat} (h : n < 2 ^ 31) (hn : n ≠ 0) : 0 < Int32.ofNat n := by
  rw [Int32.lt_iff_toInt_lt, Int32.toInt_ofNat_of_lt h]
  simpa using Nat.pos_of_ne_zero hn

section Round

variable {vector ready response : Int32} {message : String} {u : Handling} {main : MainPc}
  {pc : ClientPc} {bench i requests seen : Nat} {responses : List Int32}

theorem ask_run (h : i ≤ total) :
    ask.foldlM (State.step uipiIndex pid total)
      ⟨⟨vector, ready, message, response⟩, u, main, bench, .loop i, responses, requests, seen⟩ =
        some ⟨⟨vector, 1, messageText pid i, 0⟩, { u with pending := true }, main, bench, .wait i,
          responses, requests + 1, seen⟩ := by
  have hloop : State.step uipiIndex pid total
      ⟨⟨vector, ready, message, response⟩, u, main, bench, .loop i, responses, requests, seen⟩
      (.client true) = some ⟨⟨vector, ready, message, response⟩, u, main, bench, .message i,
        responses, requests, seen⟩ := by
    simp [State.step, State.clientStep, h]
  exact foldlM_cons_some.mpr ⟨_, hloop, rfl⟩

theorem handle_run {c : Int32} {printed : List (Int32 × String)} (hmain : main.detached = false) :
    handle.foldlM (State.step uipiIndex pid total)
      ⟨⟨vector, ready, message, response⟩, ⟨true, none, c, printed⟩, main, bench, pc, responses,
        requests, seen⟩ =
        some ⟨⟨vector, ready, message, (c + 1) * 100⟩,
          ⟨false, none, c + 1, printed ++ [(c + 1, message)]⟩, main, bench, pc, responses, requests,
          seen⟩ := by
  have hlive : main ≠ .exited ∧ main ≠ .killed := by
    constructor <;> rintro rfl <;> cases hmain
  simp [handle, List.replicate, State.step, State.handlerStep, hlive, hmain]

theorem take_run (h : response ≠ 0) : take.foldlM (State.step uipiIndex pid total)
    ⟨⟨vector, ready, message, response⟩, u, main, bench, .wait i, responses, requests, seen⟩ =
      some ⟨⟨vector, 0, message, response⟩, u, main, bench, .loop (i + 1), responses ++ [response],
        requests, seen⟩ := by
  have hwait : State.step uipiIndex pid total
      ⟨⟨vector, ready, message, response⟩, u, main, bench, .wait i, responses, requests, seen⟩
      (.client true) = some ⟨⟨vector, ready, message, response⟩, u, main, bench, .report i,
        responses, requests, seen⟩ := by
    simp [State.step, State.clientStep, h]
  exact foldlM_cons_some.mpr ⟨_, hwait, rfl⟩

theorem count_run (hu : u.handler = none) (hpos : 0 < u.interruptCount)
    (hb : bench + 1 < iterations) :
    [.main, .main, .main, .main].foldlM (State.step uipiIndex pid total)
      ⟨⟨vector, 1, message, response⟩, u, .wait, bench, pc, responses, requests, seen⟩ =
        some ⟨⟨vector, 1, message, response⟩, u, .reset, bench + 1, pc, responses, requests,
          seen + 1⟩ := by
  have hlt : bench < iterations := Nat.lt_of_succ_lt hb
  simp [State.step, State.mainStep, hu, hpos, hlt, Nat.not_le.mpr hb]

end Round

theorem round_between (message : String) (response : Int32) {n b : Nat} (counted : Bool)
    (hn : (n + 1) * 100 < 2 ^ 31) (htotal : n + 1 ≤ total)
    (hb : counted = true → b + 1 < iterations) :
    ∃ message' response', (round counted).foldlM (State.step uipiIndex pid total)
      (between uipiIndex pid message response n b) =
        some (between uipiIndex pid message' response' (n + 1) (b + counted.toNat)) := by
  have hne := answer_ne_zero hn (Nat.succ_ne_zero n)
  have hpos := count_pos (n := n + 1) (by omega) (Nat.succ_ne_zero n)
  have hcount : Int32.ofNat n + 1 = Int32.ofNat (n + 1) := (Int32.ofNat_add n 1).symm
  refine ⟨messageText pid (n + 1), Int32.ofNat (n + 1) * 100, ?_⟩
  have hreset : MainPc.reset.detached = false := rfl
  have hwait : MainPc.wait.detached = false := rfl
  unfold between round
  rw [lines_succ, answers_succ]
  cases counted with
  | false =>
    refine foldlM_append_some.mpr ⟨_, ask_run htotal, ?_⟩
    refine foldlM_append_some.mpr ⟨_, handle_run hreset, ?_⟩
    rw [hcount]
    exact take_run hne
  | true =>
    refine foldlM_cons_some.mpr ⟨_, rfl, ?_⟩
    refine foldlM_append_some.mpr ⟨_, ask_run htotal, ?_⟩
    refine foldlM_append_some.mpr ⟨_, handle_run hwait, ?_⟩
    rw [hcount]
    refine foldlM_append_some.mpr ⟨_, count_run rfl hpos (hb rfl), ?_⟩
    exact take_run hne

/-- **How many requests the server counts is left to chance**: whichever of the client's requests
are to be counted, fewer than `iterations` of them, some run has them all answered and counts
these. -/
theorem seen_any (huipi : uipiIndex ≠ 0) (counted : List Bool)
    (hlt : counted.count true < iterations) (htotal : counted.length ≤ total)
    (hn : counted.length * 100 < 2 ^ 31) :
    ∃ (as : List Action) (s : State),
      as.foldlM (State.step uipiIndex pid total) .initial = some s ∧
        s.responses.length = counted.length ∧ s.requests = counted.length ∧
          s.benchIterations = counted.count true := by
  suffices ∃ (as : List Action) (message : String) (response : Int32),
      as.foldlM (State.step uipiIndex pid total) .initial =
        some (between uipiIndex pid message response counted.length (counted.count true)) by
    obtain ⟨as, message, response, h⟩ := this
    exact ⟨as, _, h, answers_length _, rfl, rfl⟩
  induction counted using List.reverseRecOn with
  | nil =>
    have hvector : State.step uipiIndex pid total ((State.initial).mainStep uipiIndex)
        (.client true) = some (between uipiIndex pid "" 0 0 0) := by
      simp [State.step, State.mainStep, State.clientStep, State.initial, between, huipi, lines,
        answers]
    exact ⟨[.main, .client true], "", 0, foldlM_cons_some.mpr ⟨_, rfl,
      foldlM_cons_some.mpr ⟨_, hvector, rfl⟩⟩⟩
  | append_singleton counted b ih =>
    have hcount : (counted ++ [b]).count true = counted.count true + b.toNat := by
      cases b <;> simp
    rw [List.length_append, List.length_singleton] at htotal hn ⊢
    rw [hcount] at hlt ⊢
    obtain ⟨as, message, response, h⟩ := ih (by omega) (by omega) (by omega)
    have hb : b = true → counted.count true + 1 < iterations := by
      rintro rfl
      exact hlt
    obtain ⟨message', response', h'⟩ := round_between message response b hn htotal hb
    exact ⟨as ++ round b, message', response', foldlM_append_some.mpr ⟨_, h, h'⟩⟩

/-- Twelve requests, of which the server counts two. -/
theorem seen_any_twelve : ∃ (as : List Action) (s : State),
    as.foldlM (State.step 1 7 12) .initial = some s ∧ s.responses.length = 12 ∧ s.requests = 12 ∧
      s.benchIterations = 2 :=
  seen_any (by decide) [true, false, false, false, false, true, false, false, false, false, false,
    false] (by decide) (by decide) (by decide)

/-! ## Behind the loop -/

/-- The memory is detached, and the client waits for a response that is not there. -/
structure Stranded (i : Nat) (responses : List Int32) (s : State) : Prop where
  main : s.main.detached = true
  client : s.client = .wait i
  response : s.shared.response = 0
  responses : s.responses = responses

theorem Stranded.step {i : Nat} {responses : List Int32} (h : Stranded i responses s)
    (ht : s.step uipiIndex pid total a = some t) : Stranded i responses t := by
  obtain ⟨hm, hc, h0, hr⟩ := h
  cases a with
  | main =>
    simp only [State.step] at ht
    split at ht
    · obtain rfl := Option.some.inj ht
      obtain ⟨-, hc', -, h0', hr', -⟩ := mainStep_frame uipiIndex s
      refine ⟨?_, hc'.trans hc, h0'.trans h0, hr'.trans hr⟩
      unfold State.mainStep
      cases hs : s.main with
      | unregister => rfl
      | exited | killed => exact hm
      | vector | reset | wait | count | limit | sleep | detach =>
        rw [hs] at hm
        cases hm
    · cases ht
  | interrupt =>
    simp only [State.step] at ht
    split at ht
    · rename_i hpc _
      obtain rfl := Option.some.inj ht
      cases hpc with
      | count => exact ⟨hm, hc, h0, hr⟩
      | print | respond =>
        rw [State.handlerStep, if_pos hm]
        exact ⟨rfl, hc, h0, hr⟩
    · split at ht
      · obtain rfl := Option.some.inj ht
        exact ⟨hm, hc, h0, hr⟩
      · cases ht
  | client sent =>
    simp only [State.step, State.clientStep, hc, h0, if_true, Option.some.injEq] at ht
    exact ht ▸ ⟨hm, hc, h0, hr⟩

end OSCompas.Uintr
