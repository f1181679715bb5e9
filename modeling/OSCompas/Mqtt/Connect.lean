import OSCompas.Mqtt.Session

/-!
# The CONNECT packet (`lab5-2-iot-sensor-rtos/src/mqtt_client.c`)

`mqtt_build_connect_packet` against the protocol's own packet.

* `connectPacket` — the bytes it made, and `connectSize`, how many they are;
* `FaithfulConnect` — a reader gets back what was asked for.

The continuation bit of the remaining length is taken away again, so from 128 on a reader finds a
single byte there that is too small.  The clients of `mqtt_connect_to_broker` are named with 19
characters and stay clear of that.

Principal results: `connect_short`, `connect_long_unread` and `connect_faithful_iff`.
-/

set_option autoImplicit false

namespace OSCompas.Mqtt

open Varint Function

/-- The bytes that the call made: as many as it returned. -/
def connectPacket (buffer : Buffer) (id : CString) : List UInt8 :=
  let made := mqttBuildConnectPacket buffer id
  made.1.take made.2

/-- The size returned. -/
def connectSize (id : CString) : Nat := 14 + id.length % 65536

variable {buffer : Buffer} {id : CString}

/-! ## The bytes -/

/-- The text of the fields, with no remaining length yet. -/
theorem connectFields_text (buffer : Buffer) (id : CString) :
    (connectFields buffer id).text =
      MQTT_MSG_CONNECT :: 0 :: (protocol ++ 0x02 :: (be16 MQTT_KEEPALIVE ++
        (be16 (id.length % 65536) ++ id.chars.take (id.length % 65536)))) := by
  have hempty : (Cursor.mk buffer 0).text = [] := rfl
  rw [← topic_bytes (show MQTT_KEEPALIVE < 65536 by decide),
    ← topic_bytes (Nat.mod_lt _ (by decide)), protocol]
  simp only [connectFields, Cursor.memcpy_text, Cursor.put_text, hempty, List.nil_append,
    List.cons_append]

theorem connectFields_p (buffer : Buffer) (id : CString) :
    (connectFields buffer id).p = connectSize id := by
  have hid : min (id.length % 65536) id.chars.length = id.length % 65536 :=
    Nat.min_eq_left (Nat.mod_le _ _)
  simp only [connectFields, Cursor.memcpy_p, Cursor.put_p, List.length_take, hid, connectSize]

/-- The bytes made, from the text of the fields. -/
theorem connectPacket_eq (buffer : Buffer) (id : CString) :
    connectPacket buffer id =
      if connectSize id - 2 > 127 then
        ((connectFields buffer id).text.set 1 (UInt8.ofNat ((connectSize id - 2) % 128))).set 2
          (UInt8.ofNat ((connectSize id - 2) / 128 % 128))
      else (connectFields buffer id).text.set 1 (UInt8.ofNat (connectSize id - 2)) := by
  have htext : (List.range (connectSize id)).map (connectFields buffer id).buffer.bytes =
      (connectFields buffer id).text := by
    rw [← connectFields_p buffer id]
    rfl
  unfold connectPacket mqttBuildConnectPacket Buffer.take
  dsimp only
  rw [connectFields_p]
  split
  · simp only [Buffer.set, and_127, Nat.shiftRight_eq_div_pow, Nat.reducePow]
    rw [range_map_set, range_map_set, range_map_set, range_map_set, List.set_set, List.set_set,
      htext]
  · rename_i h
    simp only [Buffer.set, and_127]
    rw [range_map_set, htext, Nat.mod_eq_of_lt (by omega)]

/-- The packet when the remaining length has room. -/
theorem connect_short (buffer : Buffer) (h : connectSize id ≤ 129) :
    connectPacket buffer id =
      (Connect.mk true MQTT_KEEPALIVE (id.chars.take (id.length % 65536))).encode := by
  have hid : (id.chars.take (id.length % 65536)).length = id.length % 65536 := by
    rw [List.length_take]
    exact Nat.min_eq_left (Nat.mod_le _ _)
  have hlen : (Connect.mk true MQTT_KEEPALIVE
      (id.chars.take (id.length % 65536))).body.length = connectSize id - 2 := by
    rw [Connect.body_length, hid, connectSize]
    omega
  rw [connectPacket_eq, if_neg (by omega), connectFields_text, Connect.encode, hlen,
    encode_of_lt (by omega), Connect.body, Connect.fields, hid]
  rfl

/-- The packet from 128 on: one byte says how long the rest is, without its continuation bit. -/
theorem connect_long (buffer : Buffer) (h : 129 < connectSize id) :
    ∃ l, connectPacket buffer id =
        0x10 :: UInt8.ofNat ((connectSize id - 2) % 128) :: l ∧ l.length + 2 = connectSize id := by
  have hid : min (id.length % 65536) id.chars.length = id.length % 65536 :=
    Nat.min_eq_left (Nat.mod_le _ _)
  refine ⟨UInt8.ofNat ((connectSize id - 2) / 128 % 128) ::
    ([4, 77, 81, 84, 84, 4] ++ 0x02 :: (be16 MQTT_KEEPALIVE ++
      (be16 (id.length % 65536) ++ id.chars.take (id.length % 65536)))), ?_, ?_⟩
  · rw [connectPacket_eq, if_pos (by omega), connectFields_text]
    rfl
  · simp only [List.length_cons, List.length_append, List.length_nil, be16_length,
      List.length_take, hid, connectSize]
    omega

/-! ## What a reader makes of it -/

/-- A packet from 128 on is never read as the packet and what follows it. -/
theorem connect_long_unread (buffer : Buffer) (h : 129 < connectSize id) (p : Connect)
    (rest : List UInt8) :
    decodeConnect (connectPacket buffer id ++ rest) ≠ some (p, rest) := by
  obtain ⟨l, hl, hlen⟩ := connect_long buffer h
  intro hd
  rw [hl] at hd
  have hbyte : (UInt8.ofNat ((connectSize id - 2) % 128)).toNat = (connectSize id - 2) % 128 :=
    toNat_ofNat (by omega)
  have hvar : decode 4 (UInt8.ofNat ((connectSize id - 2) % 128) :: (l ++ rest)) =
      some ((connectSize id - 2) % 128, l ++ rest) := by
    rw [decode_last (by omega), hbyte]
  have hrest := decodeConnect_rest hvar hd
  have hless : (connectSize id - 2) % 128 < 128 := Nat.mod_lt _ (by omega)
  rw [List.length_append] at hrest
  omega

/-- What was asked of the packet: a reader gets clean session, the keep-alive time and the client id
back, and has then read as many bytes as were returned, whatever follows them. -/
def FaithfulConnect (buffer : Buffer) (id : CString) : Prop :=
  ∀ rest, decodeConnect (connectPacket buffer id ++ rest) =
    some (⟨true, MQTT_KEEPALIVE, id.chars⟩, rest)

/-- A short packet is read with as much of the id as the two bytes of its length can say. -/
theorem connect_short_read (buffer : Buffer) (h : connectSize id ≤ 129) (rest : List UInt8) :
    decodeConnect (connectPacket buffer id ++ rest) =
      some (⟨true, MQTT_KEEPALIVE, id.chars.take (id.length % 65536)⟩, rest) := by
  rw [connect_short buffer h]
  refine decodeConnect_encode _ (show MQTT_KEEPALIVE < 65536 by decide) ?_ rest
  have hmod : id.length % 65536 < 65536 := Nat.mod_lt _ (by omega)
  exact lt_of_le_of_lt (List.length_take_le _ _) hmod

theorem connect_faithful (buffer : Buffer) (h : id.length ≤ 115) : FaithfulConnect buffer id := by
  have hmod : id.length % 65536 = id.length := Nat.mod_eq_of_lt (by omega)
  have hsize : connectSize id ≤ 129 := by
    rw [connectSize, hmod]
    omega
  intro rest
  rw [connect_short_read buffer hsize, hmod]
  exact congrArg (fun l => some (Connect.mk true MQTT_KEEPALIVE l, rest)) List.take_length

/-- **A CONNECT packet is faithful exactly up to 115 characters of client id.** -/
theorem connect_faithful_iff (buffer : Buffer) (id : CString) :
    FaithfulConnect buffer id ↔ id.length ≤ 115 := by
  refine ⟨fun hf => ?_, connect_faithful buffer⟩
  by_cases h : connectSize id ≤ 129
  · have hsame := (connect_short_read buffer h []).symm.trans (hf [])
    simp only [Option.some.injEq, Prod.mk.injEq, Connect.mk.injEq, and_true, true_and] at hsame
    have hlen := congrArg List.length hsame
    have hid : id.chars.length = id.length := rfl
    rw [List.length_take, hid] at hlen
    unfold connectSize at h
    omega
  · exact absurd (hf []) (connect_long_unread buffer (by omega) _ [])

/-- An id of 116 characters: 130 bytes are returned, and they are not read as a packet. -/
theorem connect_unfaithful_116 :
    (mqttBuildConnectPacket ⟨fun _ => 0, []⟩ (letters 116)).2 = 130 ∧
    ¬ FaithfulConnect ⟨fun _ => 0, []⟩ (letters 116) := by
  have hid : (letters 116).length = 116 := List.length_replicate
  have hsize : connectSize (letters 116) = 130 := by rw [connectSize, hid]
  refine ⟨(connectFields_p _ _).trans hsize, fun hf => ?_⟩
  exact connect_long_unread _ (by omega) _ [] (hf [])

/-! ## The packet that is sent -/

theorem clientId_length (tick : UInt32) : (clientId tick).length = 19 := by
  show (List.length (_ ++ _)) = _
  rw [List.length_append, List.length_map, List.length_range]
  rfl

/-- What `mqtt_connect_to_broker` hands to `mqtt_send_packet` is a CONNECT packet with its id. -/
theorem mqttConnectToBroker_faithful (bytes : Nat → UInt8) (tick : UInt32) :
    FaithfulConnect ⟨bytes, []⟩ (clientId tick) := by
  apply connect_faithful
  rw [clientId_length]
  omega

end OSCompas.Mqtt
