import Mathlib.Data.List.Infix
import Mathlib.Data.UInt

/-!
# The WiFi module's driver (`lab5-2-iot-sensor-rtos/src/wifi_esp8266.c`)

The driver writes AT commands to the serial line and reads the module's replies.

* `AtCommand`, `Uart` — the commands, and what happens on the serial line;
* `Replies` — what the module does while a command is waited for;
* `esp8266SendCmd`, `wifiSendTcp` — `esp8266_send_cmd` and `wifi_send_tcp`.

Principal results: `waitReply_received` and `esp8266SendCmd_log`.
-/

set_option autoImplicit false

namespace OSCompas.Wifi

/-- The characters of a text. -/
def ascii (s : List Char) : List UInt8 := s.map fun c => UInt8.ofNat c.toNat

inductive RtErr where
  | ok
  | error
  | timeout
  deriving DecidableEq, Repr

/-- The commands of `wifi_send_tcp`. -/
inductive AtCommand where
  /-- `AT+CIPSTART` to the broker. -/
  | cipstart
  /-- `AT+CIPSEND`. -/
  | cipsend (len : Nat)
  /-- The empty command, which only waits. -/
  | nothing
  /-- `AT+CIPCLOSE`. -/
  | cipclose
  deriving DecidableEq, Repr

/-- What happens on the serial line, in order. -/
inductive Uart where
  | command (c : AtCommand)
  | data (bytes : List UInt8)
  | received (chunk : List UInt8)
  deriving DecidableEq, Repr

/-- A turn of the waiting loop: the semaphore is not released within a second, or it is and `chunk`
is read; `elapsed` is the time since the command was written. -/
inductive Turn where
  | silence (elapsed : Nat)
  | wake (chunk : List UInt8) (elapsed : Nat)
  deriving DecidableEq, Repr

/-- What the module does about a command: what is still in the receive buffer when the command is
written, and the turns of the waiting loop.  After the last turn it is silent. -/
structure Replies where
  stale : List (List UInt8)
  turns : List Turn
  deriving DecidableEq, Repr

/-! ## The code -/

/-- `rt_strstr` on a buffer, which ends at its first zero. -/
def rtStrstr (response expect : List UInt8) : Bool :=
  (response.takeWhile (· ≠ 0)).tails.any expect.isPrefixOf

/-- The waiting loop of `esp8266_send_cmd`. -/
def waitReply (expect : List UInt8) (timeout : Nat) : List Turn → RtErr × List Uart
  | [] => (.timeout, [])
  | .silence elapsed :: turns =>
    if elapsed > timeout then (.timeout, []) else waitReply expect timeout turns
  | .wake chunk elapsed :: turns =>
    if chunk.length > 0 ∧ rtStrstr chunk expect then (.ok, [.received chunk])
    else if chunk.length > 0 ∧ (rtStrstr chunk (ascii ['E', 'R', 'R', 'O', 'R']) ∨
        rtStrstr chunk (ascii ['F', 'A', 'I', 'L'])) then (.error, [.received chunk])
    else if elapsed > timeout then (.timeout, [.received chunk])
    else
      let rest := waitReply expect timeout turns
      (rest.1, .received chunk :: rest.2)

/-- `esp8266_send_cmd`: the result, and what happened on the line. -/
def esp8266SendCmd (cmd : AtCommand) (expect : List UInt8) (timeout : Nat) (replies : Replies) :
    RtErr × List Uart :=
  let result := waitReply expect timeout replies.turns
  (result.1, replies.stale.map .received ++ .command cmd :: result.2)

/-- The module's replies to the four commands of `wifi_send_tcp`. -/
structure TcpReplies where
  start : Replies
  send : Replies
  sent : Replies
  close : Replies
  deriving DecidableEq, Repr

/-- The call that opens the connection. -/
def cipStart (replies : Replies) : RtErr × List Uart :=
  esp8266SendCmd .cipstart (ascii ['C', 'O', 'N', 'N', 'E', 'C', 'T']) 10000 replies

/-- The call that announces `len` bytes. -/
def cipSend (len : Nat) (replies : Replies) : RtErr × List Uart :=
  esp8266SendCmd (.cipsend len) (ascii ['>']) 3000 replies

/-- `wifi_send_tcp`. -/
def wifiSendTcp (data : List UInt8) (replies : TcpReplies) : RtErr × List Uart :=
  let start := cipStart replies.start
  if start.1 ≠ .ok then start
  else
    let send := cipSend data.length replies.send
    if send.1 ≠ .ok then (send.1, start.2 ++ send.2)
    else
      let sent := esp8266SendCmd .nothing (ascii ['S', 'E', 'N', 'D', ' ', 'O', 'K']) 5000
        replies.sent
      let close := esp8266SendCmd .cipclose (ascii ['C', 'L', 'O', 'S', 'E', 'D']) 3000
        replies.close
      (.ok, start.2 ++ (send.2 ++ (.data data :: (sent.2 ++ close.2))))

/-! ## What the code does -/

variable {data : List UInt8} {replies : TcpReplies} {cmd : AtCommand} {expect : List UInt8}
  {timeout : Nat}

/-- The module takes both the connection and the announcement of the data. -/
def TcpReplies.Accept (replies : TcpReplies) : Prop :=
  (waitReply (ascii ['C', 'O', 'N', 'N', 'E', 'C', 'T']) 10000 replies.start.turns).1 = .ok ∧
    (waitReply (ascii ['>']) 3000 replies.send.turns).1 = .ok

instance (replies : TcpReplies) : Decidable replies.Accept := inferInstanceAs (Decidable (_ ∧ _))

/-- Waiting only reads. -/
theorem waitReply_received (turns : List Turn) :
    ∀ e ∈ (waitReply expect timeout turns).2, ∃ chunk, e = .received chunk := by
  induction turns with
  | nil => exact nofun
  | cons turn turns ih =>
    cases turn with
    | silence elapsed =>
      rw [waitReply]
      split
      · exact nofun
      · exact ih
    | wake chunk elapsed =>
      rw [waitReply]
      split
      · simp
      · split
        · simp
        · split
          · simp
          · simpa using ih

/-- A command is written once; the rest of the call reads. -/
theorem esp8266SendCmd_log (cmd : AtCommand) (expect : List UInt8) (timeout : Nat) (r : Replies) :
    ∃ before after : List Uart, (∀ e ∈ before ++ after, ∃ chunk, e = .received chunk) ∧
      (esp8266SendCmd cmd expect timeout r).2 = before ++ .command cmd :: after := by
  refine ⟨r.stale.map .received, (waitReply expect timeout r.turns).2, ?_, rfl⟩
  intro e he
  rcases List.mem_append.mp he with he | he
  · obtain ⟨chunk, -, rfl⟩ := List.mem_map.mp he
    exact ⟨chunk, rfl⟩
  · exact waitReply_received _ e he

end OSCompas.Wifi
