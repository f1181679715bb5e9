import OSCompas.Mqtt.Packet

/-!
# Building the packets (`lab5-2-iot-sensor-rtos/src/mqtt_client.c`)

* `CString`, `Buffer`, `Cursor` — strings, a `char` array that is being written and the pointer
  into it;
* `mqttBuildPublishPacket` — `mqtt_build_publish_packet`, and `packet`, the bytes it made;
* `mqttBuildConnectPacket` — `mqtt_build_connect_packet`.

The remaining length has one byte of room.  From 128 on a second byte is written over the high byte
of the topic's length, and the packet is a byte short for what it says.

Principal results: `packet_short`, `packet_long` and `publish_faithful_iff`.
-/

set_option autoImplicit false

namespace OSCompas.Mqtt

open Varint Function

/-! ## Strings and buffers -/

/-- A string of C, without the zero at its end. -/
structure CString where
  chars : List UInt8
  nul_free : 0 ∉ chars

namespace CString

/-- `rt_strlen`. -/
def length (s : CString) : Nat := s.chars.length

end CString

/-- A `char` array: what is in it, and the indices written so far. -/
structure Buffer where
  bytes : Nat → UInt8
  written : List Nat

/-- `buffer[i] = v`. -/
def Buffer.set (b : Buffer) (i : Nat) (v : UInt8) : Buffer where
  bytes := update b.bytes i v
  written := i :: b.written

/-- An array with a pointer into it. -/
structure Cursor where
  buffer : Buffer
  p : Nat

namespace Cursor

/-- `*p++ = v`. -/
def put (c : Cursor) (v : UInt8) : Cursor := ⟨c.buffer.set c.p v, c.p + 1⟩

/-- `memcpy(p, l, n)` and `p += n`. -/
def memcpy (c : Cursor) (l : List UInt8) : Cursor := l.foldl put c

/-- What lies before the pointer. -/
def text (c : Cursor) : List UInt8 := (List.range c.p).map c.buffer.bytes

end Cursor

/-! ## The code -/

def MQTT_MSG_PUBLISH : UInt8 := 0x30

/-- `mqtt_build_publish_packet` up to the payload. -/
def publishFields (buffer : Buffer) (topic payload : CString) : Cursor :=
  let topicLen := topic.length % 65536
  let payloadLen := payload.length % 65536
  let c : Cursor := ⟨buffer, 0⟩
  let c := c.put MQTT_MSG_PUBLISH
  let c := c.put 0
  let c := c.put (UInt8.ofNat ((topicLen >>> 8) &&& 0xFF))
  let c := c.put (UInt8.ofNat (topicLen &&& 0xFF))
  let c := c.memcpy (topic.chars.take topicLen)
  c.memcpy (payload.chars.take payloadLen)

/-- The remaining length written into its place. -/
def putRemaining (b : Buffer) (remainingLen : Nat) : Buffer :=
  let b := b.set 1 (UInt8.ofNat (remainingLen &&& 0x7F))
  if remainingLen > 127 then
    let b := b.set 1 (b.bytes 1 ||| 0x80)
    b.set 2 (UInt8.ofNat ((remainingLen >>> 7) &&& 0x7F))
  else b

/-- `mqtt_build_publish_packet`: the array and the size returned. -/
def mqttBuildPublishPacket (buffer : Buffer) (topic payload : CString) : Buffer × Nat :=
  let c := publishFields buffer topic payload
  (putRemaining c.buffer (c.p - 2), c.p)

def MQTT_MSG_CONNECT : UInt8 := 0x10

def MQTT_KEEPALIVE : Nat := 60

/-- `mqtt_build_connect_packet` up to the client id. -/
def connectFields (buffer : Buffer) (clientId : CString) : Cursor :=
  let c : Cursor := ⟨buffer, 0⟩
  let c := c.put MQTT_MSG_CONNECT
  let c := c.put 0
  let c := (c.put 0).put 4
  let c := (((c.put 77).put 81).put 84).put 84  -- "MQTT"
  let c := c.put 4
  let c := c.put 0x02
  let c := c.put (UInt8.ofNat ((MQTT_KEEPALIVE >>> 8) &&& 0xFF))
  let c := c.put (UInt8.ofNat (MQTT_KEEPALIVE &&& 0xFF))
  let clientIdLen := clientId.length % 65536
  let c := c.put (UInt8.ofNat ((clientIdLen >>> 8) &&& 0xFF))
  let c := c.put (UInt8.ofNat (clientIdLen &&& 0xFF))
  c.memcpy (clientId.chars.take clientIdLen)

/-- `mqtt_build_connect_packet`; the second write to `buffer[1]` takes the continuation bit away
again. -/
def mqttBuildConnectPacket (buffer : Buffer) (clientId : CString) : Buffer × Nat :=
  let c := connectFields buffer clientId
  let remainingLen := c.p - 2
  let b := c.buffer.set 1 (UInt8.ofNat (remainingLen &&& 0x7F))
  let b :=
    if remainingLen > 127 then
      let b := b.set 1 (b.bytes 1 ||| 0x80)
      let b := b.set 1 (UInt8.ofNat (remainingLen &&& 0x7F))
      b.set 2 (UInt8.ofNat ((remainingLen >>> 7) &&& 0x7F))
    else b
  (b, c.p)

/-- The first `n` bytes of an array. -/
def Buffer.take (b : Buffer) (n : Nat) : List UInt8 := (List.range n).map b.bytes

/-- The bytes that the call made: as many as it returned. -/
def packet (buffer : Buffer) (topic payload : CString) : List UInt8 :=
  let made := mqttBuildPublishPacket buffer topic payload
  (List.range made.2).map made.1.bytes

variable {b : Buffer} {c : Cursor} {l rest : List UInt8} {v : UInt8} {i n : Nat}
  {buffer : Buffer} {topic payload : CString}

/-! ## Writing -/

namespace Cursor

@[simp] theorem put_p (c : Cursor) (v : UInt8) : (c.put v).p = c.p + 1 := rfl

@[simp] theorem memcpy_p (c : Cursor) (l : List UInt8) : (c.memcpy l).p = c.p + l.length := by
  induction l generalizing c with
  | nil => rfl
  | cons v l ih =>
    show ((c.put v).memcpy l).p = _
    rw [ih, put_p, List.length_cons]
    omega

@[simp] theorem put_text (c : Cursor) (v : UInt8) : (c.put v).text = c.text ++ [v] := by
  have hold : (List.range c.p).map (update c.buffer.bytes c.p v) = c.text := by
    apply List.map_congr_left
    intro j hj
    exact update_of_ne (Nat.ne_of_lt (List.mem_range.mp hj)) _ _
  show (List.range (c.p + 1)).map (update c.buffer.bytes c.p v) = _
  rw [List.range_succ, List.map_append, hold, List.map_singleton, update_self]

@[simp] theorem memcpy_text (c : Cursor) (l : List UInt8) : (c.memcpy l).text = c.text ++ l := by
  induction l generalizing c with
  | nil => simp [memcpy]
  | cons v l ih =>
    show ((c.put v).memcpy l).text = _
    rw [ih, put_text, List.append_assoc, List.singleton_append]

/-- Only what lies before the pointer has been written. -/
def Behind (c : Cursor) : Prop := ∀ i ∈ c.buffer.written, i < c.p

theorem Behind.put (h : c.Behind) (v : UInt8) : (c.put v).Behind := by
  intro i hi
  rcases List.mem_cons.mp hi with rfl | hi
  · exact Nat.lt_succ_self _
  · exact Nat.lt_succ_of_lt (h i hi)

theorem Behind.memcpy (h : c.Behind) (l : List UInt8) : (c.memcpy l).Behind := by
  induction l generalizing c with
  | nil => exact h
  | cons v l ih => exact ih (h.put v)

end Cursor

/-- A write before the end of a text. -/
theorem range_map_set (f : Nat → UInt8) (n i : Nat) (v : UInt8) :
    (List.range n).map (update f i v) = ((List.range n).map f).set i v := by
  apply List.ext_getElem
  · simp
  · intro j h₁ h₂
    simp only [List.getElem_map, List.getElem_range, List.getElem_set, update_apply]
    by_cases h : i = j
    · simp [h]
    · simp [h, Ne.symm h]

/-! ## Bits of the lengths -/

theorem and_127 (n : Nat) : n &&& 0x7F = n % 128 := Nat.and_two_pow_sub_one_eq_mod n 7

theorem and_255 (n : Nat) : n &&& 0xFF = n % 256 := Nat.and_two_pow_sub_one_eq_mod n 8

/-- The continuation bit. -/
theorem or_80 (n : Nat) : UInt8.ofNat (n % 128) ||| 0x80 = UInt8.ofNat (n % 128 + 128) := by
  have h : n % 128 < 2 ^ 7 := Nat.mod_lt _ (by decide)
  apply UInt8.toNat_inj.mp
  rw [UInt8.toNat_or, toNat_ofNat (by omega), toNat_ofNat (by omega),
    show (0x80 : UInt8).toNat = 2 ^ 7 * 1 from rfl, Nat.or_comm, ← Nat.two_pow_add_eq_or_of_lt h]
  omega

theorem topic_bytes (h : n < 65536) :
    [UInt8.ofNat ((n >>> 8) &&& 0xFF), UInt8.ofNat (n &&& 0xFF)] = be16 n := by
  rw [and_255, and_255, Nat.shiftRight_eq_div_pow, be16, Nat.mod_eq_of_lt (by omega)]

/-! ## The packet -/

/-- The size returned. -/
def packetSize (topic payload : CString) : Nat :=
  4 + topic.length % 65536 + payload.length % 65536

/-- The text of the fields, with no remaining length yet. -/
theorem publishFields_text (buffer : Buffer) (topic payload : CString) :
    (publishFields buffer topic payload).text =
      MQTT_MSG_PUBLISH :: 0 :: (be16 (topic.length % 65536) ++
        (topic.chars.take (topic.length % 65536) ++
          payload.chars.take (payload.length % 65536))) := by
  have hempty : (Cursor.mk buffer 0).text = [] := rfl
  rw [← topic_bytes (Nat.mod_lt _ (by decide))]
  simp only [publishFields, Cursor.memcpy_text, Cursor.put_text, hempty, List.nil_append,
    List.cons_append]

theorem publishFields_p (buffer : Buffer) (topic payload : CString) :
    (publishFields buffer topic payload).p = packetSize topic payload := by
  have ht : min (topic.length % 65536) topic.chars.length = topic.length % 65536 :=
    Nat.min_eq_left (Nat.mod_le _ _)
  have hp : min (payload.length % 65536) payload.chars.length = payload.length % 65536 :=
    Nat.min_eq_left (Nat.mod_le _ _)
  simp only [publishFields, Cursor.memcpy_p, Cursor.put_p, List.length_take, ht, hp, packetSize]

/-- Nothing is written past the size returned. -/
theorem mqttBuildPublishPacket_written (bytes : Nat → UInt8) (topic payload : CString) :
    ∀ i ∈ (mqttBuildPublishPacket ⟨bytes, []⟩ topic payload).1.written,
      i < (mqttBuildPublishPacket ⟨bytes, []⟩ topic payload).2 := by
  have hempty : (Cursor.mk ⟨bytes, []⟩ 0).Behind := nofun
  have hfields : (publishFields ⟨bytes, []⟩ topic payload).Behind :=
    (((((hempty.put _).put _).put _).put _).memcpy _).memcpy _
  have hp := publishFields_p ⟨bytes, []⟩ topic payload
  intro i hi
  show i < (publishFields ⟨bytes, []⟩ topic payload).p
  simp only [mqttBuildPublishPacket, putRemaining] at hi
  have hsize : 2 < (publishFields ⟨bytes, []⟩ topic payload).p := by
    rw [hp, packetSize]
    omega
  split at hi
  · simp only [Buffer.set, List.mem_cons] at hi
    rcases hi with rfl | rfl | rfl | hi
    · exact hsize
    · omega
    · omega
    · exact hfields i hi
  · simp only [Buffer.set, List.mem_cons] at hi
    rcases hi with rfl | hi
    · omega
    · exact hfields i hi

/-- The remaining length written into a text. -/
theorem putRemaining_text (c : Cursor) (n : Nat) :
    (List.range c.p).map (putRemaining c.buffer n).bytes =
      if n > 127 then
        (c.text.set 1 (UInt8.ofNat (n % 128 + 128))).set 2 (UInt8.ofNat (n / 128 % 128))
      else c.text.set 1 (UInt8.ofNat n) := by
  unfold putRemaining
  split
  · simp only [Buffer.set, update_self, and_127, or_80, Nat.shiftRight_eq_div_pow, Nat.reducePow]
    rw [range_map_set, range_map_set, range_map_set, List.set_set, Cursor.text]
  · rename_i h
    simp only [Buffer.set, and_127]
    rw [range_map_set, Cursor.text, Nat.mod_eq_of_lt (by omega)]

/-- The bytes made, from the text of the fields. -/
theorem packet_eq (buffer : Buffer) (topic payload : CString) :
    packet buffer topic payload =
      if packetSize topic payload - 2 > 127 then
        ((publishFields buffer topic payload).text.set 1
          (UInt8.ofNat ((packetSize topic payload - 2) % 128 + 128))).set 2
            (UInt8.ofNat ((packetSize topic payload - 2) / 128 % 128))
      else
        (publishFields buffer topic payload).text.set 1
          (UInt8.ofNat (packetSize topic payload - 2)) := by
  have h := putRemaining_text (publishFields buffer topic payload)
    ((publishFields buffer topic payload).p - 2)
  rw [publishFields_p] at h
  rw [← h]
  unfold packet mqttBuildPublishPacket
  dsimp only
  rw [publishFields_p]

/-- The packet when the remaining length has room. -/
theorem packet_short (buffer : Buffer) (h : packetSize topic payload ≤ 129) :
    packet buffer topic payload =
      (Publish.mk false (topic.chars.take (topic.length % 65536))
        (payload.chars.take (payload.length % 65536))).encode := by
  have ht : (topic.chars.take (topic.length % 65536)).length = topic.length % 65536 := by
    rw [List.length_take]
    exact Nat.min_eq_left (Nat.mod_le _ _)
  have hp : (payload.chars.take (payload.length % 65536)).length = payload.length % 65536 := by
    rw [List.length_take]
    exact Nat.min_eq_left (Nat.mod_le _ _)
  have hlen : (Publish.mk false (topic.chars.take (topic.length % 65536))
      (payload.chars.take (payload.length % 65536))).body.length =
        packetSize topic payload - 2 := by
    rw [Publish.body_length, ht, hp, packetSize]
    omega
  rw [packet_eq, if_neg (by omega), publishFields_text, Publish.encode, hlen,
    encode_of_lt (by omega), Publish.body, ht]
  rfl

/-- The packet from 128 on: what follows the two bytes of the remaining length is a byte short. -/
theorem packet_long (buffer : Buffer) (h : 129 < packetSize topic payload) :
    ∃ l, packet buffer topic payload =
        0x30 :: UInt8.ofNat ((packetSize topic payload - 2) % 128 + 128) ::
          UInt8.ofNat ((packetSize topic payload - 2) / 128 % 128) :: l ∧
      l.length + 3 = packetSize topic payload := by
  refine ⟨UInt8.ofNat (topic.length % 65536 % 256) ::
    (topic.chars.take (topic.length % 65536) ++ payload.chars.take (payload.length % 65536)),
    ?_, ?_⟩
  · rw [packet_eq, if_pos (by omega), publishFields_text]
    rfl
  · have ht : min (topic.length % 65536) topic.chars.length = topic.length % 65536 :=
      Nat.min_eq_left (Nat.mod_le _ _)
    have hp : min (payload.length % 65536) payload.chars.length = payload.length % 65536 :=
      Nat.min_eq_left (Nat.mod_le _ _)
    simp only [List.length_cons, List.length_append, List.length_take, ht, hp, packetSize]
    omega

/-! ## What a reader makes of it -/

/-- A packet from 128 on is never read as the packet and what follows it. -/
theorem packet_long_unread (buffer : Buffer) (h : 129 < packetSize topic payload) (p : Publish)
    (rest : List UInt8) :
    decodePublish (packet buffer topic payload ++ rest) ≠ some (p, rest) := by
  obtain ⟨l, hl, hlen⟩ := packet_long buffer h
  intro hd
  rw [hl] at hd
  have hfirst : (UInt8.ofNat ((packetSize topic payload - 2) % 128 + 128)).toNat =
      (packetSize topic payload - 2) % 128 + 128 := toNat_ofNat (by omega)
  have hsecond : (UInt8.ofNat ((packetSize topic payload - 2) / 128 % 128)).toNat =
      (packetSize topic payload - 2) / 128 % 128 := toNat_ofNat (by omega)
  have hvar : decode 4 (UInt8.ofNat ((packetSize topic payload - 2) % 128 + 128) ::
      UInt8.ofNat ((packetSize topic payload - 2) / 128 % 128) :: (l ++ rest)) =
        some ((packetSize topic payload - 2) % 128 +
          128 * ((packetSize topic payload - 2) / 128 % 128), l ++ rest) := by
    rw [decode_more (by omega), decode_last (by omega), Option.map_some, hfirst, hsecond,
      Nat.add_sub_cancel]
  have hrest := decodePublish_rest (.inl rfl) hvar hd
  rw [List.length_append] at hrest
  omega

/-- What was asked of the packet: a reader gets the topic and the payload back, and has then read
as many bytes as were returned, whatever follows them. -/
def Faithful (buffer : Buffer) (topic payload : CString) : Prop :=
  ∀ rest, decodePublish (packet buffer topic payload ++ rest) =
    some (⟨false, topic.chars, payload.chars⟩, rest)

/-- **A PUBLISH packet is faithful exactly up to 125 bytes of topic and payload.** -/
theorem publish_faithful_iff (buffer : Buffer) (topic payload : CString)
    (ht : topic.length ≤ 65535) :
    Faithful buffer topic payload ↔ topic.length + payload.length ≤ 125 := by
  have htopic : topic.chars.take (topic.length % 65536) = topic.chars := by
    rw [Nat.mod_eq_of_lt (by omega)]
    exact List.take_length
  by_cases h : packetSize topic payload ≤ 129
  · have hsize := h
    rw [packetSize, Nat.mod_eq_of_lt (show topic.length < 65536 by omega)] at hsize
    have hread : ∀ rest, decodePublish (packet buffer topic payload ++ rest) =
        some (⟨false, topic.chars, payload.chars.take (payload.length % 65536)⟩, rest) := by
      intro rest
      rw [packet_short buffer h, htopic]
      apply decodePublish_encode
      · exact Nat.lt_succ_of_le ht
      · have hp : min (payload.length % 65536) payload.chars.length ≤ payload.length % 65536 :=
          Nat.min_le_left _ _
        have htl : topic.chars.length = topic.length := rfl
        rw [Publish.body_length, List.length_take, htl]
        omega
    constructor
    · intro hf
      have hsame := (hread []).symm.trans (hf [])
      simp only [Option.some.injEq, Prod.mk.injEq, Publish.mk.injEq, and_true, true_and] at hsame
      have hlen := congrArg List.length hsame
      have hpl : payload.chars.length = payload.length := rfl
      rw [List.length_take, hpl] at hlen
      have hmod : payload.length % 65536 < 65536 := Nat.mod_lt _ (by decide)
      omega
    · intro hsum rest
      rw [hread rest, Nat.mod_eq_of_lt (by omega)]
      exact congrArg (fun l => some (Publish.mk false topic.chars l, rest)) List.take_length
  · constructor
    · intro hf
      exact absurd (hf []) (packet_long_unread buffer (by omega) _ [])
    · intro hsum
      unfold packetSize at h
      omega

/-- `n` times the character `a`. -/
def letters (n : Nat) : CString := ⟨List.replicate n 97, by simp⟩

/-- A topic of 17 and a payload of 108 characters. -/
theorem publish_faithful_125 : Faithful ⟨fun _ => 0, []⟩ (letters 17) (letters 108) :=
  (publish_faithful_iff ⟨fun _ => 0, []⟩ (letters 17) (letters 108) (by decide)).mpr (by decide)

/-- One character more: 130 bytes are returned, and they are not read as a packet. -/
theorem publish_unfaithful_126 :
    (mqttBuildPublishPacket ⟨fun _ => 0, []⟩ (letters 17) (letters 109)).2 = 130 ∧
    ∀ rest, decodePublish (packet ⟨fun _ => 0, []⟩ (letters 17) (letters 109) ++ rest) ≠
      some (⟨false, (letters 17).chars, (letters 109).chars⟩, rest) := by
  refine ⟨publishFields_p _ _ _, fun rest => ?_⟩
  exact packet_long_unread _ (by decide) _ rest

end OSCompas.Mqtt
