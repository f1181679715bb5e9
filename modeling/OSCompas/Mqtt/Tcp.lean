import OSCompas.Mqtt.Chunking

/-!
# Sending over TCP (`lab5-2-iot-sensor-rtos/src/wifi_esp8266.c`)

`wifi_send_tcp` against what the module says.

* `HasLine`, `Opened`, `Confirmed` — the module reports an opened connection with the line `CONNECT`
  and a sent payload with the line `SEND OK`;
* `Closed` — `AT+CIPCLOSE` was written after `AT+CIPSTART`;
* `Honest` — success is not reported without either, and what was opened is closed;
* `Finds`, `TakesData` — the replies on which a command succeeds, and the first two commands do.

The result of waiting for `SEND OK` is dropped, and the two early returns close nothing.

Principal results: `waitReply_ok_iff`, `wifiSendTcp_ok_iff`, `wifiSendTcp_closed_iff` and
`wifiSendTcp_honest_iff`.
-/

set_option autoImplicit false

namespace OSCompas.Wifi

/-! ## What is asked of the call -/

/-- `w` is a line of the text. -/
def HasLine (w l : List UInt8) : Prop :=
  ∃ pre post, l = pre ++ (w ++ 13 :: 10 :: post) ∧ (pre = [] ∨ pre.getLast? = some 10)

/-- The module has opened a connection for `AT+CIPSTART`. -/
def Opened (replies : TcpReplies) : Prop :=
  HasLine (ascii ['C', 'O', 'N', 'N', 'E', 'C', 'T']) (replies.start.turns.flatMap Turn.read)

/-- The module has confirmed the payload. -/
def Confirmed (replies : TcpReplies) : Prop :=
  HasLine (ascii ['S', 'E', 'N', 'D', ' ', 'O', 'K'])
    (replies.sent.stale.flatten ++ replies.sent.turns.flatMap Turn.read)

/-- The connection is closed again. -/
def Closed (log : List Uart) : Prop :=
  ∃ before after, log = before ++ .command .cipstart :: after ∧ .command .cipclose ∈ after

theorem Closed.mem {log : List Uart} (h : Closed log) : .command .cipclose ∈ log := by
  obtain ⟨before, after, rfl, hmem⟩ := h
  exact List.mem_append_right _ (List.mem_cons_of_mem _ hmem)

/-- Success means an opened connection and a confirmed payload, and an opened connection is closed
again. -/
def Honest (data : List UInt8) (replies : TcpReplies) : Prop :=
  ((wifiSendTcp data replies).1 = .ok → Opened replies ∧ Confirmed replies) ∧
    (Opened replies → Closed (wifiSendTcp data replies).2)

/-! ## A command -/

variable {expect : List UInt8} {timeout : Nat} {turns : List Turn} {data : List UInt8}
  {replies : TcpReplies}

/-- The turn lets the waiting go on. -/
def Turn.Passes (expect : List UInt8) (timeout : Nat) (t : Turn) : Prop :=
  t.elapsed ≤ timeout ∧ ¬ expect <:+: visible t.read ∧ ¬ Failed (visible t.read)

/-- A piece with the expected text is read, and the waiting has gone on until then. -/
def Finds (expect : List UInt8) (timeout : Nat) (turns : List Turn) : Prop :=
  ∃ before chunk elapsed after, turns = before ++ .wake chunk elapsed :: after ∧
    expect <:+: visible chunk ∧ ∀ t ∈ before, t.Passes expect timeout

theorem finds_cons (t : Turn) (turns : List Turn) :
    Finds expect timeout (t :: turns) ↔
      (∃ chunk elapsed, t = .wake chunk elapsed ∧ expect <:+: visible chunk) ∨
        (t.Passes expect timeout ∧ Finds expect timeout turns) := by
  constructor
  · rintro ⟨before, chunk, elapsed, after, hturns, hin, hpass⟩
    cases before with
    | nil =>
      obtain ⟨rfl, -⟩ := List.cons.inj hturns
      exact .inl ⟨chunk, elapsed, rfl, hin⟩
    | cons b before =>
      obtain ⟨rfl, hrest⟩ := List.cons.inj hturns
      exact .inr ⟨hpass t List.mem_cons_self, before, chunk, elapsed, after, hrest, hin,
        fun u hu => hpass u (List.mem_cons_of_mem _ hu)⟩
  · rintro (⟨chunk, elapsed, rfl, hin⟩ | ⟨ht, before, chunk, elapsed, after, rfl, hin, hpass⟩)
    · exact ⟨[], chunk, elapsed, turns, rfl, hin, fun _ h => absurd h List.not_mem_nil⟩
    · refine ⟨t :: before, chunk, elapsed, after, rfl, hin, fun u hu => ?_⟩
      rcases List.mem_cons.mp hu with rfl | hu
      · exact ht
      · exact hpass u hu

/-- One turn of the waiting. -/
theorem waitReply_cons_ok_iff (he : expect ≠ []) (t : Turn) (turns : List Turn) :
    (waitReply expect timeout (t :: turns)).1 = .ok ↔
      (∃ chunk elapsed, t = .wake chunk elapsed ∧ expect <:+: visible chunk) ∨
        (t.Passes expect timeout ∧ (waitReply expect timeout turns).1 = .ok) := by
  cases t with
  | silence elapsed =>
    have hpass : (Turn.silence elapsed).Passes expect timeout ↔ elapsed ≤ timeout := by
      have hread : visible (Turn.silence elapsed).read = [] := rfl
      unfold Turn.Passes
      rw [hread, List.infix_nil]
      exact and_iff_left ⟨he, not_failed_nil⟩
    rw [hpass, waitReply]
    split
    · rename_i hlate
      simp [Nat.not_le.mpr hlate]
    · rename_i hlate
      simp [Nat.not_lt.mp hlate]
  | wake chunk elapsed =>
    have hempty : expect <:+: visible chunk ∨ Failed (visible chunk) → chunk.length > 0 := by
      intro h
      rw [gt_iff_lt, List.length_pos_iff]
      rintro rfl
      exact h.elim (fun h => he (List.infix_nil.mp h)) not_failed_nil
    rw [waitReply]
    split
    · rename_i hin
      exact iff_of_true rfl (.inl ⟨chunk, elapsed, rfl, (rtStrstr_iff _ _).mp hin.2⟩)
    · rename_i hin
      have hnot : ¬ expect <:+: visible chunk := fun h =>
        hin ⟨hempty (.inl h), (rtStrstr_iff _ _).mpr h⟩
      have hno : ¬ ∃ chunk' elapsed', Turn.wake chunk elapsed = .wake chunk' elapsed' ∧
          expect <:+: visible chunk' := by
        rintro ⟨chunk', elapsed', h, hin'⟩
        cases h
        exact hnot hin'
      split
      · rename_i hfail
        refine iff_of_false (by simp) ?_
        rintro (h | ⟨⟨-, -, h⟩, -⟩)
        · exact hno h
        · exact h ((failed_visible chunk).mp hfail.2)
      · rename_i hfail
        have hgood : ¬ Failed (visible chunk) := fun h =>
          hfail ⟨hempty (.inr h), (failed_visible chunk).mpr h⟩
        split
        · rename_i hlate
          refine iff_of_false (by simp) ?_
          rintro (h | ⟨⟨h, -⟩, -⟩)
          · exact hno h
          · exact absurd h (Nat.not_le.mpr hlate)
        · rename_i hlate
          rw [or_iff_right hno]
          exact (and_iff_right ⟨Nat.not_lt.mp hlate, hnot, hgood⟩).symm

/-- **When the waiting ends well.** -/
theorem waitReply_ok_iff (he : expect ≠ []) (turns : List Turn) :
    (waitReply expect timeout turns).1 = .ok ↔ Finds expect timeout turns := by
  induction turns with
  | nil =>
    refine iff_of_false (by simp [waitReply]) ?_
    rintro ⟨before, chunk, elapsed, after, h, -⟩
    simp at h
  | cons t turns ih => rw [finds_cons, waitReply_cons_ok_iff he, ih]

/-! ## The exchange -/

/-- The module answers both `AT+CIPSTART` and `AT+CIPSEND` as it is hoped for. -/
def TakesData (replies : TcpReplies) : Prop :=
  Finds (ascii ['C', 'O', 'N', 'N', 'E', 'C', 'T']) 10000 replies.start.turns ∧
    Finds (ascii ['>']) 3000 replies.send.turns

theorem accept_iff (replies : TcpReplies) : replies.Accept ↔ TakesData replies :=
  and_congr (waitReply_ok_iff (by decide) _) (waitReply_ok_iff (by decide) _)

theorem command_mem_sendCmd (c cmd : AtCommand) (expect : List UInt8) (timeout : Nat)
    (r : Replies) : .command c ∈ (esp8266SendCmd cmd expect timeout r).2 ↔ c = cmd := by
  obtain ⟨before, after, hread, hlog⟩ := esp8266SendCmd_log cmd expect timeout r
  rw [hlog]
  constructor
  · intro h
    rcases List.mem_append.mp h with h | h
    · obtain ⟨chunk, hchunk⟩ := hread _ (List.mem_append_left _ h)
      cases hchunk
    · rcases List.mem_cons.mp h with h | h
      · exact Uart.command.inj h
      · obtain ⟨chunk, hchunk⟩ := hread _ (List.mem_append_right _ h)
        cases hchunk
  · rintro rfl
    exact List.mem_append_right _ List.mem_cons_self

/-- The three ways through `wifi_send_tcp`. -/
theorem wifiSendTcp_cases (data : List UInt8) (replies : TcpReplies) :
    (replies.Accept ∧ (wifiSendTcp data replies).1 = .ok ∧
      ∃ rest, (wifiSendTcp data replies).2 = (cipStart replies.start).2 ++ rest ∧
        .command .cipclose ∈ rest) ∨
    (¬ replies.Accept ∧ (wifiSendTcp data replies).1 ≠ .ok ∧
      .command .cipclose ∉ (wifiSendTcp data replies).2) := by
  have haccept : replies.Accept ↔
      (cipStart replies.start).1 = .ok ∧ (cipSend data.length replies.send).1 = .ok := Iff.rfl
  have hstart : .command .cipclose ∉ (cipStart replies.start).2 := by
    rw [cipStart, command_mem_sendCmd]
    simp
  have hsend : .command .cipclose ∉ (cipSend data.length replies.send).2 := by
    rw [cipSend, command_mem_sendCmd]
    simp
  unfold wifiSendTcp
  by_cases h₁ : (cipStart replies.start).1 = .ok
  · by_cases h₂ : (cipSend data.length replies.send).1 = .ok
    · left
      simp only [h₁, h₂, ne_eq, not_true_eq_false, if_false]
      refine ⟨haccept.mpr ⟨h₁, h₂⟩, trivial, _, rfl, ?_⟩
      refine List.mem_append_right _ (List.mem_cons_of_mem _ (List.mem_append_right _ ?_))
      exact (command_mem_sendCmd _ _ _ _ _).mpr rfl
    · right
      simp only [h₁, h₂, ne_eq, not_true_eq_false, not_false_eq_true, if_false, if_true]
      refine ⟨fun h => h₂ (haccept.mp h).2, trivial, fun h => ?_⟩
      exact (List.mem_append.mp h).elim hstart hsend
  · right
    simp only [h₁, ne_eq, not_false_eq_true, if_true]
    exact ⟨fun h => h₁ (haccept.mp h).1, trivial, hstart⟩

theorem wifiSendTcp_ok_iff (data : List UInt8) (replies : TcpReplies) :
    (wifiSendTcp data replies).1 = .ok ↔ TakesData replies := by
  rw [← accept_iff]
  rcases wifiSendTcp_cases data replies with ⟨h, hok, -⟩ | ⟨h, hok, -⟩
  · exact iff_of_true hok h
  · exact iff_of_false hok h

/-- The connection is closed on one of the three ways. -/
theorem wifiSendTcp_closed_iff (data : List UInt8) (replies : TcpReplies) :
    Closed (wifiSendTcp data replies).2 ↔ TakesData replies := by
  rw [← accept_iff]
  rcases wifiSendTcp_cases data replies with ⟨h, -, rest, hlog, hmem⟩ | ⟨h, -, hno⟩
  · refine iff_of_true ?_ h
    obtain ⟨before, after, -, hstart⟩ := esp8266SendCmd_log .cipstart
      (ascii ['C', 'O', 'N', 'N', 'E', 'C', 'T']) 10000 replies.start
    refine ⟨before, after ++ rest, ?_, List.mem_append_right _ hmem⟩
    rw [hlog, cipStart, hstart, List.append_assoc, List.cons_append]
  · exact iff_of_false (fun hclosed => hno hclosed.mem) h

/-- **The call is honest exactly when its first two commands succeed on an opened connection whose
payload is confirmed, or one of them fails and no connection was opened.** -/
theorem wifiSendTcp_honest_iff (data : List UInt8) (replies : TcpReplies) :
    Honest data replies ↔
      (TakesData replies ∧ Opened replies ∧ Confirmed replies) ∨
        (¬ TakesData replies ∧ ¬ Opened replies) := by
  unfold Honest
  rw [wifiSendTcp_ok_iff, wifiSendTcp_closed_iff]
  by_cases h : TakesData replies
  · simp [h]
  · simp [h]

/-- The module sends one line at once. -/
def answer (text : List Char) : Replies := ⟨[], [.wake (ascii text ++ [13, 10]) 1]⟩

/-- The module opens a connection and cannot send the payload. -/
def sendFails : TcpReplies where
  start := answer ['C', 'O', 'N', 'N', 'E', 'C', 'T']
  send := answer ['>']
  sent := answer ['S', 'E', 'N', 'D', ' ', 'F', 'A', 'I', 'L']
  close := answer ['C', 'L', 'O', 'S', 'E', 'D']

/-- The module opens a connection and does not take the payload. -/
def busy : TcpReplies := { sendFails with send := answer ['E', 'R', 'R', 'O', 'R'] }

/-- A payload that was not sent is reported as sent, and a connection is left open. -/
theorem wifiSendTcp_dishonest :
    ¬ Honest [0xE0, 0] sendFails ∧ ¬ Honest [0xE0, 0] busy := by
  constructor
  · rintro ⟨hok, -⟩
    obtain ⟨-, pre, post, hline, -⟩ := hok (by decide)
    have hin : ascii ['S', 'E', 'N', 'D', ' ', 'O', 'K'] <:+:
        ascii ['S', 'E', 'N', 'D', ' ', 'F', 'A', 'I', 'L'] ++ [13, 10] := by
      refine ⟨pre, 13 :: 10 :: post, ?_⟩
      rw [List.append_assoc]
      exact hline.symm
    exact absurd hin (by decide)
  · rintro ⟨-, hclosed⟩
    have hopened : Opened busy := ⟨[], [], by decide, .inl rfl⟩
    exact absurd (hclosed hopened).mem (by decide)

end OSCompas.Wifi
