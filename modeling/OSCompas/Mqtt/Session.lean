import OSCompas.Mqtt.Client
import OSCompas.Mqtt.Wifi

/-!
# The client's sessions (`lab5-2-iot-sensor-rtos/src/mqtt_client.c`)

Every packet goes through `wifi_send_tcp`, which opens a connection for it and closes it again, so
a PUBLISH is never sent on the connection that its CONNECT went out on.

* `Client`, `Call`, `step`, `run` — the client's state and its calls;
* `Connection`, `Ordered` — what has happened on a TCP connection, and the order of the packets on
  every connection of a log;
* `Held` — a call that sends no PUBLISH and no DISCONNECT.

Principal results: `ordered_step` and `session_ordered_iff`.
-/

set_option autoImplicit false

namespace OSCompas.Mqtt

open Wifi Function

/-! ## The code -/

inductive MqttState where
  | disconnected
  | connecting
  | connected
  deriving DecidableEq, Repr

/-- `mqtt_state`, whether there is a mutex, and the serial line. -/
structure Client where
  state : MqttState
  mutex : Bool
  log : List Uart
  deriving DecidableEq, Repr

def MQTT_MSG_DISCONNECT : UInt8 := 0xE0

/-- A hexadecimal digit. -/
def hexDigit (d : Nat) : UInt8 := if d < 10 then UInt8.ofNat (48 + d) else UInt8.ofNat (87 + d)

theorem hexDigit_ne_zero : ∀ d < 16, hexDigit d ≠ 0 := by decide

/-- `iot_sensor_%08x` of the tick. -/
def clientId (tick : UInt32) : CString where
  chars := ascii ['i', 'o', 't', '_', 's', 'e', 'n', 's', 'o', 'r', '_'] ++
    (List.range 8).map fun i => hexDigit (tick.toNat / 16 ^ (7 - i) % 16)
  nul_free := by
    intro h
    rcases List.mem_append.mp h with h | h
    · revert h
      decide
    · obtain ⟨i, -, hi⟩ := List.mem_map.mp h
      exact hexDigit_ne_zero _ (Nat.mod_lt _ (by decide)) hi

/-- `mqtt_send_packet`. -/
def mqttSendPacket (packet : List UInt8) (replies : TcpReplies) : RtErr × List Uart :=
  wifiSendTcp packet replies

/-- `mqtt_connect_to_broker`; `bytes` is what the array held before. -/
def mqttConnectToBroker (c : Client) (bytes : Nat → UInt8) (tick : UInt32)
    (replies : TcpReplies) : RtErr × Client :=
  let made := mqttBuildConnectPacket ⟨bytes, []⟩ (clientId tick)
  let sent := mqttSendPacket (made.1.take made.2) replies
  let c := { c with log := c.log ++ sent.2 }
  if sent.1 ≠ .ok then (.error, c) else (.ok, { c with state := .connected })

/-- `mqtt_client_init`; `created` says whether `rt_mutex_create` succeeds. -/
def mqttClientInit (c : Client) (created : Bool) (bytes : Nat → UInt8) (tick : UInt32)
    (replies : TcpReplies) : RtErr × Client :=
  let c := { c with mutex := created }
  if ¬ created then (.error, c) else mqttConnectToBroker c bytes tick replies

/-- `mqtt_publish_data`; taking a mutex that was not created does not return. -/
def mqttPublishData (c : Client) (bytes : Nat → UInt8) (topic data : CString)
    (replies : TcpReplies) : Option (RtErr × Client) :=
  if c.state ≠ .connected then some (.error, c)
  else if ¬ c.mutex then none
  else
    let sent := mqttSendPacket (packet ⟨bytes, []⟩ topic data) replies
    let c := { c with log := c.log ++ sent.2 }
    if sent.1 ≠ .ok then some (.error, c) else some (.ok, c)

/-- `mqtt_disconnect`. -/
def mqttDisconnect (c : Client) (replies : TcpReplies) : RtErr × Client :=
  let sent := mqttSendPacket [MQTT_MSG_DISCONNECT, 0] replies
  (.ok, { c with log := c.log ++ sent.2, state := .disconnected })

/-- A call, with what its environment does. -/
inductive Call where
  | init (created : Bool) (bytes : Nat → UInt8) (tick : UInt32) (replies : TcpReplies)
  | publish (bytes : Nat → UInt8) (topic data : CString) (replies : TcpReplies)
  | disconnect (replies : TcpReplies)

/-- The client after the call, if it returns. -/
def step (c : Client) : Call → Option Client
  | .init created bytes tick replies => some (mqttClientInit c created bytes tick replies).2
  | .publish bytes topic data replies => (mqttPublishData c bytes topic data replies).map Prod.snd
  | .disconnect replies => some (mqttDisconnect c replies).2

/-- The client after the calls, if they return. -/
def run (c : Client) : List Call → Option Client
  | [] => some c
  | call :: calls => (step c call).bind fun c' => run c' calls

/-- The client before the first call. -/
def Client.initial : Client := ⟨.disconnected, false, []⟩

/-! ## The order on the wire -/

def isConnect (bytes : List UInt8) : Bool := bytes.head? = some 0x10

def isPublish (bytes : List UInt8) : Bool := bytes.head? = some 0x30

def isDisconnect (bytes : List UInt8) : Bool := bytes.head? = some 0xE0

/-- A CONNACK is among the bytes. -/
def hasConnack (bytes : List UInt8) : Bool := bytes.tails.any [0x20, 0x02].isPrefixOf

/-- What has happened on the current connection: a packet has been sent, a CONNECT has been sent,
and since then a CONNACK has been received. -/
structure Connection where
  sent : Bool
  connect : Bool
  connack : Bool
  deriving DecidableEq, Repr

/-- A connection on which nothing has happened. -/
def Connection.fresh : Connection := ⟨false, false, false⟩

def Connection.after (c : Connection) : Uart → Connection
  | .command .cipstart => .fresh
  | .command .cipclose => .fresh
  | .command _ => c
  | .data bytes => ⟨true, c.connect || isConnect bytes, c.connack⟩
  | .received chunk => { c with connack := c.connack || (c.connect && hasConnack chunk) }

/-- The packet may be sent on the connection. -/
def Connection.Allows (c : Connection) (bytes : List UInt8) : Prop :=
  (c.sent = false → isConnect bytes = true) ∧
    (isPublish bytes = true ∨ isDisconnect bytes = true → c.connect = true ∧ c.connack = true)

instance (c : Connection) (bytes : List UInt8) : Decidable (c.Allows bytes) :=
  inferInstanceAs (Decidable (_ ∧ _))

/-- Every packet of the log may be sent when it is. -/
def OrderedFrom (c : Connection) : List Uart → Prop
  | [] => True
  | .data bytes :: log => c.Allows bytes ∧ OrderedFrom (c.after (.data bytes)) log
  | e :: log => OrderedFrom (c.after e) log

/-- On every connection the first packet is CONNECT, and a PUBLISH or DISCONNECT comes after a
CONNECT and its CONNACK. -/
def Ordered (log : List Uart) : Prop := OrderedFrom .fresh log

variable {c : Connection} {log log' : List Uart} {bytes : List UInt8} {replies : TcpReplies}

theorem orderedFrom_append (c : Connection) (log log' : List Uart) :
    OrderedFrom c (log ++ log') ↔
      OrderedFrom c log ∧ OrderedFrom (log.foldl Connection.after c) log' := by
  induction log generalizing c with
  | nil => simp [OrderedFrom]
  | cons e log ih =>
    cases e with
    | data bytes => exact (and_congr_right fun _ => ih _).trans and_assoc.symm
    | command cmd => exact ih _
    | received chunk => exact ih _

/-- A log without packets. -/
theorem orderedFrom_of_quiet (c : Connection) (h : ∀ e ∈ log, ∀ bytes, e ≠ .data bytes) :
    OrderedFrom c log := by
  induction log generalizing c with
  | nil => trivial
  | cons e log ih =>
    have hrest := ih (c.after e) fun e' he' => h e' (List.mem_cons_of_mem _ he')
    cases e with
    | data bytes => exact absurd rfl (h _ List.mem_cons_self bytes)
    | command cmd => exact hrest
    | received chunk => exact hrest

/-! ## One packet a connection -/

/-- The log has no packet in it. -/
def NoPacket (log : List Uart) : Prop := ∀ e ∈ log, ∀ bytes, e ≠ .data bytes

theorem foldl_received (h : ∀ e ∈ log, ∃ chunk, e = .received chunk) :
    log.foldl Connection.after .fresh = .fresh := by
  induction log with
  | nil => rfl
  | cons e log ih =>
    obtain ⟨chunk, rfl⟩ := h e List.mem_cons_self
    exact ih fun e' he' => h e' (List.mem_cons_of_mem _ he')

theorem noPacket_sendCmd (cmd : AtCommand) (expect : List UInt8) (timeout : Nat) (r : Replies) :
    NoPacket (esp8266SendCmd cmd expect timeout r).2 := by
  obtain ⟨before, after, hread, hlog⟩ := esp8266SendCmd_log cmd expect timeout r
  intro e he bytes
  rw [hlog] at he
  rcases List.mem_append.mp he with he | he
  · obtain ⟨chunk, rfl⟩ := hread e (List.mem_append_left _ he)
    exact nofun
  · rcases List.mem_cons.mp he with rfl | he
    · exact nofun
    · obtain ⟨chunk, rfl⟩ := hread e (List.mem_append_right _ he)
      exact nofun

/-- A command on a connection that has carried nothing leaves it so. -/
theorem fresh_sendCmd (cmd : AtCommand) (expect : List UInt8) (timeout : Nat) (r : Replies) :
    (esp8266SendCmd cmd expect timeout r).2.foldl Connection.after .fresh = .fresh := by
  obtain ⟨before, after, hread, hlog⟩ := esp8266SendCmd_log cmd expect timeout r
  have hcmd : Connection.after .fresh (.command cmd) = .fresh := by cases cmd <;> rfl
  rw [hlog, List.foldl_append, foldl_received fun e he => hread e (List.mem_append_left _ he),
    List.foldl_cons, hcmd, foldl_received fun e he => hread e (List.mem_append_right _ he)]

/-- `AT+CIPSTART` begins a connection. -/
theorem fresh_cipStart (c : Connection) (r : Replies) :
    (cipStart r).2.foldl Connection.after c = .fresh := by
  obtain ⟨before, after, hread, hlog⟩ := esp8266SendCmd_log .cipstart
    (ascii ['C', 'O', 'N', 'N', 'E', 'C', 'T']) 10000 r
  have hstart : ∀ c : Connection, c.after (.command .cipstart) = .fresh := fun _ => rfl
  rw [cipStart, hlog, List.foldl_append, List.foldl_cons, hstart,
    foldl_received fun e he => hread e (List.mem_append_right _ he)]

theorem cipStart_ok_iff (r : Replies) : (cipStart r).1 = .ok ↔
    (waitReply (ascii ['C', 'O', 'N', 'N', 'E', 'C', 'T']) 10000 r.turns).1 = .ok := Iff.rfl

theorem cipSend_ok_iff (n : Nat) (r : Replies) : (cipSend n r).1 = .ok ↔
    (waitReply (ascii ['>']) 3000 r.turns).1 = .ok := Iff.rfl

/-- **A packet that is sent is the first one on its connection.** -/
theorem orderedFrom_wifiSendTcp (c : Connection) (bytes : List UInt8) (replies : TcpReplies) :
    OrderedFrom c (wifiSendTcp bytes replies).2 ↔
      (replies.Accept → Connection.fresh.Allows bytes) := by
  have hstart : OrderedFrom c (cipStart replies.start).2 :=
    orderedFrom_of_quiet c (noPacket_sendCmd _ _ _ _)
  have hsend : OrderedFrom .fresh (cipSend bytes.length replies.send).2 :=
    orderedFrom_of_quiet _ (noPacket_sendCmd _ _ _ _)
  unfold wifiSendTcp TcpReplies.Accept
  rw [← cipStart_ok_iff, ← cipSend_ok_iff bytes.length]
  by_cases h₁ : (cipStart replies.start).1 = .ok
  · by_cases h₂ : (cipSend bytes.length replies.send).1 = .ok
    · simp only [h₁, h₂, ne_eq, not_true_eq_false, if_false, and_self, true_imp_iff]
      rw [orderedFrom_append, orderedFrom_append, fresh_cipStart, cipSend, fresh_sendCmd]
      constructor
      · exact fun h => h.2.2.1
      · intro h
        refine ⟨hstart, hsend, h, ?_⟩
        rw [orderedFrom_append]
        exact ⟨orderedFrom_of_quiet _ (noPacket_sendCmd _ _ _ _),
          orderedFrom_of_quiet _ (noPacket_sendCmd _ _ _ _)⟩
    · simp only [h₁, h₂, ne_eq, not_true_eq_false, not_false_eq_true, if_false, if_true, and_false,
        false_imp_iff, iff_true]
      rw [orderedFrom_append, fresh_cipStart]
      exact ⟨hstart, hsend⟩
  · simp only [h₁, ne_eq, not_false_eq_true, if_true, false_and, false_imp_iff, iff_true]
    exact hstart

/-! ## The packets of the client -/

/-- The first byte of an array that has one. -/
theorem take_head (b : Buffer) {n : Nat} (hn : 0 < n) : (b.take n).head? = some (b.bytes 0) := by
  obtain ⟨n, rfl⟩ := Nat.exists_eq_succ_of_ne_zero (Nat.pos_iff_ne_zero.mp hn)
  rw [Buffer.take, List.range_succ_eq_map]
  rfl

/-- Writes past the first byte. -/
theorem set_zero (b : Buffer) {i : Nat} (v : UInt8) (hi : i ≠ 0) : (b.set i v).bytes 0 = b.bytes 0 :=
  update_of_ne (Ne.symm hi) _ _

theorem memcpy_zero (c : Cursor) (l : List UInt8) (hp : c.p ≠ 0) :
    (c.memcpy l).buffer.bytes 0 = c.buffer.bytes 0 := by
  induction l generalizing c with
  | nil => rfl
  | cons v l ih =>
    show ((c.put v).memcpy l).buffer.bytes 0 = _
    rw [ih (c.put v) (Nat.succ_ne_zero _)]
    exact set_zero _ _ hp

theorem connectFields_zero (b : Buffer) (id : CString) :
    (connectFields b id).buffer.bytes 0 = 0x10 := by
  unfold connectFields
  dsimp only
  rw [memcpy_zero _ _ (Nat.succ_ne_zero _)]
  rfl

theorem connect_head (b : Buffer) (id : CString) :
    ((mqttBuildConnectPacket b id).1.take (mqttBuildConnectPacket b id).2).head? = some 0x10 := by
  have hsize : 0 < (mqttBuildConnectPacket b id).2 := by
    simp only [mqttBuildConnectPacket, connectFields, Cursor.memcpy_p]
    exact Nat.lt_add_right _ (Nat.succ_pos _)
  have hzero : (mqttBuildConnectPacket b id).1.bytes 0 = 0x10 := by
    unfold mqttBuildConnectPacket
    dsimp only
    split
    · rw [set_zero _ _ (by decide), set_zero _ _ (by decide), set_zero _ _ (by decide),
        set_zero _ _ (by decide), connectFields_zero]
    · rw [set_zero _ _ (by decide), connectFields_zero]
  rw [take_head _ hsize, hzero]

theorem publish_head (b : Buffer) (topic payload : CString) :
    (packet b topic payload).head? = some 0x30 := by
  by_cases h : packetSize topic payload ≤ 129
  · rw [packet_short b h]
    rfl
  · obtain ⟨l, hl, -⟩ := packet_long b (Nat.lt_of_not_le h)
    rw [hl]
    rfl

theorem fresh_allows (h : bytes.head? = some 0x10) : Connection.fresh.Allows bytes := by
  refine ⟨fun _ => by simp [isConnect, h], fun hp => ?_⟩
  rcases hp with hp | hp
  · simp [isPublish, h] at hp
  · simp [isDisconnect, h] at hp

theorem fresh_not_allows (h : bytes.head? ≠ some 0x10) : ¬ Connection.fresh.Allows bytes := by
  intro ha
  exact h (by simpa [isConnect] using ha.1 rfl)

/-! ## Runs -/

/-- The call sends no PUBLISH and no DISCONNECT: it is not one that does, or there is no session, or
the module does not take the packet. -/
def Held (c : Client) : Call → Prop
  | .init .. => True
  | .publish _ _ _ replies => c.state ≠ .connected ∨ ¬ replies.Accept
  | .disconnect replies => ¬ replies.Accept

/-- Every call of the run is held back. -/
def AllHeld (c : Client) : List Call → Prop
  | [] => True
  | call :: calls => Held c call ∧ ∀ c', step c call = some c' → AllHeld c' calls

variable {client client' : Client} {call : Call} {calls : List Call}

theorem ordered_init (client : Client) (created : Bool) (array : Nat → UInt8) (tick : UInt32)
    (replies : TcpReplies) :
    Ordered (mqttClientInit client created array tick replies).2.log ↔ Ordered client.log := by
  have hsent : OrderedFrom (client.log.foldl Connection.after .fresh)
      (mqttSendPacket ((mqttBuildConnectPacket ⟨array, []⟩ (clientId tick)).1.take
        (mqttBuildConnectPacket ⟨array, []⟩ (clientId tick)).2) replies).2 :=
    (orderedFrom_wifiSendTcp _ _ _).mpr fun _ => fresh_allows (connect_head _ _)
  unfold mqttClientInit
  split
  · exact Iff.rfl
  · have hlog : (mqttConnectToBroker { client with mutex := created } array tick replies).2.log =
        client.log ++ (mqttSendPacket ((mqttBuildConnectPacket ⟨array, []⟩ (clientId tick)).1.take
          (mqttBuildConnectPacket ⟨array, []⟩ (clientId tick)).2) replies).2 := by
      unfold mqttConnectToBroker
      dsimp only
      split <;> rfl
    dsimp only
    rw [hlog]
    exact (orderedFrom_append _ _ _).trans (and_iff_left hsent)

theorem ordered_publish {array : Nat → UInt8} {topic data : CString} {replies : TcpReplies}
    (h : step client (.publish array topic data replies) = some client') :
    Ordered client'.log ↔
      Ordered client.log ∧ (client.state ≠ .connected ∨ ¬ replies.Accept) := by
  have hpacket : ¬ Connection.fresh.Allows (packet ⟨array, []⟩ topic data) :=
    fresh_not_allows (by simp [publish_head])
  simp only [step, mqttPublishData] at h
  split at h
  · rename_i hs
    cases h
    exact (and_iff_left (.inl hs)).symm
  · rename_i hs
    split at h
    · cases h
    · have hlog : client'.log =
          client.log ++ (mqttSendPacket (packet ⟨array, []⟩ topic data) replies).2 := by
        split at h <;> cases h <;> rfl
      have hconn : client.state = .connected := Classical.not_not.mp hs
      rw [hlog]
      refine (orderedFrom_append _ _ _).trans (and_congr_right fun _ => ?_)
      refine (orderedFrom_wifiSendTcp _ _ _).trans ?_
      simp [hpacket, hconn]

theorem ordered_disconnect (client : Client) (replies : TcpReplies) :
    Ordered (mqttDisconnect client replies).2.log ↔ Ordered client.log ∧ ¬ replies.Accept := by
  have hpacket : ¬ Connection.fresh.Allows [MQTT_MSG_DISCONNECT, 0] :=
    fresh_not_allows (by decide)
  refine (orderedFrom_append _ _ _).trans (and_congr_right fun _ => ?_)
  exact (orderedFrom_wifiSendTcp _ _ _).trans (imp_congr_right fun _ => iff_false_intro hpacket)

/-- **One call** keeps the order exactly when it is held back. -/
theorem ordered_step (h : step client call = some client') :
    Ordered client'.log ↔ Ordered client.log ∧ Held client call := by
  cases call with
  | init created array tick replies =>
    cases h
    exact (ordered_init client created array tick replies).trans (and_iff_left trivial).symm
  | publish array topic data replies => exact ordered_publish h
  | disconnect replies =>
    cases h
    exact ordered_disconnect client replies

theorem ordered_run (h : run client calls = some client') :
    Ordered client'.log ↔ Ordered client.log ∧ AllHeld client calls := by
  induction calls generalizing client with
  | nil =>
    cases h
    exact (and_iff_left trivial).symm
  | cons call calls ih =>
    obtain ⟨next, hnext, hrest⟩ := Option.bind_eq_some_iff.mp h
    have htail : (∀ c', step client call = some c' → AllHeld c' calls) ↔ AllHeld next calls := by
      constructor
      · exact fun hall => hall next hnext
      · intro hheld c' hc'
        cases hnext.symm.trans hc'
        exact hheld
    rw [ih hrest, ordered_step hnext, AllHeld, htail, and_assoc]

/-- **The packets of a run are in order exactly when no PUBLISH and no DISCONNECT was sent.** -/
theorem session_ordered_iff (h : run .initial calls = some client) :
    Ordered client.log ↔ AllHeld .initial calls :=
  (ordered_run h).trans (and_iff_right trivial)

/-- The module answers at once. -/
def answers (text : List Char) : Replies := ⟨[], [.wake (ascii text) 1]⟩

/-- The module takes the packet; the broker's CONNACK comes with the confirmation. -/
def taken : TcpReplies where
  start := answers ['C', 'O', 'N', 'N', 'E', 'C', 'T']
  send := answers ['>']
  sent := ⟨[], [.wake (ascii ['S', 'E', 'N', 'D', ' ', 'O', 'K'] ++ [0x20, 0x02, 0, 0]) 1]⟩
  close := answers ['C', 'L', 'O', 'S', 'E', 'D']

/-- The module does not open a connection. -/
def refused : TcpReplies := { taken with start := answers ['E', 'R', 'R', 'O', 'R'] }

/-- A session whose publish and whose disconnect fail. -/
def heldRun : List Call := [.init true (fun _ => 0) 0 taken,
  .publish (fun _ => 0) (letters 17) (letters 40) refused, .disconnect refused]

theorem session_ordered_heldRun :
    ∃ client, run .initial heldRun = some client ∧ Ordered client.log := by
  refine ⟨_, rfl, (session_ordered_iff (show run _ heldRun = _ from rfl)).mpr ?_⟩
  have hrefused : ¬ refused.Accept := by decide
  refine ⟨trivial, fun _ h₁ => ⟨.inr hrefused, fun _ h₂ => ⟨hrefused, fun _ _ => trivial⟩⟩⟩

/-- A session as it is meant to be. -/
def plainRun : List Call := [.init true (fun _ => 0) 0 taken,
  .publish (fun _ => 0) (letters 17) (letters 40) taken]

/-- The PUBLISH is the only packet on its connection. -/
theorem session_disordered :
    ∃ client, run .initial plainRun = some client ∧ ¬ Ordered client.log := by
  refine ⟨_, rfl, fun h => ?_⟩
  have hheld := ((ordered_run (show run _ plainRun = _ from rfl)).mp h).2
  obtain ⟨hfirst, -⟩ := hheld.2 _ rfl
  rcases hfirst with hstate | haccept
  · exact hstate rfl
  · exact haccept (by decide)

end OSCompas.Mqtt
