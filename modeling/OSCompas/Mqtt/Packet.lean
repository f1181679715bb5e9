import OSCompas.Lib.Varint

/-!
# MQTT 3.1.1 packets

The PUBLISH packet at quality of service 0 and the CONNECT packet without user name, password and
will, as the protocol has them.  Nothing here is taken from the client; the client's packets are
compared with these.

* `Publish.encode`, `decodePublish` — a first byte with the packet type and the flags, the
  remaining length in base 128, the topic after its length in two bytes, the payload;
* `Connect.encode`, `decodeConnect` — the protocol's name and level, the flags, the keep-alive time
  in two bytes, the client id after its length in two bytes.

Principal results: `decodePublish_encode` and `decodeConnect_encode`.
-/

set_option autoImplicit false

namespace OSCompas.Mqtt

open Varint

/-- A PUBLISH packet without packet identifier. -/
structure Publish where
  retain : Bool
  topic : List UInt8
  payload : List UInt8
  deriving DecidableEq, Repr

namespace Publish

/-- Packet type 3; the lowest flag is RETAIN. -/
def header (p : Publish) : UInt8 := if p.retain then 0x31 else 0x30

/-- What follows the remaining length. -/
def body (p : Publish) : List UInt8 := be16 p.topic.length ++ (p.topic ++ p.payload)

def encode (p : Publish) : List UInt8 :=
  p.header :: (Varint.encode p.body.length ++ p.body)

theorem body_length (p : Publish) : p.body.length = 2 + p.topic.length + p.payload.length := by
  simp [body, Nat.add_assoc]

end Publish

def decodeBody (retain : Bool) : List UInt8 → Option Publish
  | hi :: lo :: l =>
    (cut (256 * hi.toNat + lo.toNat) l).map fun q => ⟨retain, q.1, q.2⟩
  | _ => none

/-- The packet at the head of the text, and what follows it.  The remaining length has at most four
bytes; DUP and QoS are zero. -/
def decodePublish : List UInt8 → Option (Publish × List UInt8)
  | [] => none
  | b :: l =>
    if b = 0x30 ∨ b = 0x31 then
      (decode 4 l).bind fun length => (cut length.1 length.2).bind fun body =>
        (decodeBody (b = 0x31) body.1).map fun p => (p, body.2)
    else none

/-- A CONNECT packet. -/
structure Connect where
  cleanSession : Bool
  keepAlive : Nat
  clientId : List UInt8
  deriving DecidableEq, Repr

/-- The protocol's name after its length, and level 4. -/
def protocol : List UInt8 := [0, 4, 77, 81, 84, 84, 4]

namespace Connect

/-- Bit 1 is "clean session". -/
def flags (p : Connect) : UInt8 := if p.cleanSession then 0x02 else 0x00

/-- What follows the protocol's name and level. -/
def fields (p : Connect) : List UInt8 :=
  p.flags :: (be16 p.keepAlive ++ (be16 p.clientId.length ++ p.clientId))

/-- What follows the remaining length. -/
def body (p : Connect) : List UInt8 := protocol ++ p.fields

def encode (p : Connect) : List UInt8 := 0x10 :: (Varint.encode p.body.length ++ p.body)

theorem body_length (p : Connect) : p.body.length = 12 + p.clientId.length := by
  simp [body, fields, protocol]
  omega

end Connect

/-- Nothing follows the client id. -/
def decodeFields : List UInt8 → Option Connect
  | flags :: k₁ :: k₀ :: n₁ :: n₀ :: id =>
    if (flags = 0x00 ∨ flags = 0x02) ∧ 256 * n₁.toNat + n₀.toNat = id.length then
      some ⟨flags = 0x02, 256 * k₁.toNat + k₀.toNat, id⟩
    else none
  | _ => none

/-- The packet at the head of the text, and what follows it. -/
def decodeConnect : List UInt8 → Option (Connect × List UInt8)
  | [] => none
  | b :: l =>
    if b = 0x10 then
      (decode 4 l).bind fun length => (cut length.1 length.2).bind fun body =>
        (cut protocol.length body.1).bind fun name =>
          if name.1 = protocol then (decodeFields name.2).map fun p => (p, body.2) else none
    else none

variable {p : Publish} {l rest : List UInt8} {b : UInt8}

theorem decodePublish_cons (hb : b = 0x30 ∨ b = 0x31) (l : List UInt8) :
    decodePublish (b :: l) = (decode 4 l).bind fun length =>
      (cut length.1 length.2).bind fun body =>
        (decodeBody (b = 0x31) body.1).map fun p => (p, body.2) :=
  if_pos hb

theorem decodeBody_body (p : Publish) (ht : p.topic.length < 65536) :
    decodeBody p.retain p.body = some p := by
  show (cut _ (p.topic ++ p.payload)).map _ = _
  rw [be16_value ht, cut_append]
  rfl

/-- **A packet is read back as it was written.** -/
theorem decodePublish_encode (p : Publish) (ht : p.topic.length < 65536)
    (hn : p.body.length < 128 ^ 4) (rest : List UInt8) :
    decodePublish (p.encode ++ rest) = some (p, rest) := by
  have hb : p.header = 0x30 ∨ p.header = 0x31 := by
    unfold Publish.header
    split <;> simp
  have hretain : decide (p.header = 0x31) = p.retain := by
    unfold Publish.header
    cases p.retain <;> rfl
  show decodePublish (p.header :: (encode p.body.length ++ p.body ++ rest)) = _
  rw [decodePublish_cons hb, List.append_assoc, decode_encode hn]
  simp only [Option.bind_some, cut_append, hretain, decodeBody_body p ht, Option.map_some]

/-- What a packet that was read leaves of the text after the remaining length. -/
theorem decodePublish_rest {n : Nat} {l' : List UInt8} (hb : b = 0x30 ∨ b = 0x31)
    (hd : decode 4 l = some (n, l')) (h : decodePublish (b :: l) = some (p, rest)) :
    rest.length + n = l'.length := by
  rw [decodePublish_cons hb, hd, Option.bind_some] at h
  obtain ⟨body, hc, hbody⟩ := Option.bind_eq_some_iff.mp h
  obtain ⟨q, -, hq⟩ := Option.map_eq_some_iff.mp hbody
  cases hq
  exact (cut_length hc).2

theorem decodeFields_fields (p : Connect) (hk : p.keepAlive < 65536)
    (hi : p.clientId.length < 65536) : decodeFields p.fields = some p := by
  have hflags : p.flags = 0x00 ∨ p.flags = 0x02 := by
    unfold Connect.flags
    split <;> simp
  have hclean : decide (p.flags = 0x02) = p.cleanSession := by
    unfold Connect.flags
    cases p.cleanSession <;> rfl
  show (if (p.flags = 0x00 ∨ p.flags = 0x02) ∧ _ = p.clientId.length then _ else none) = _
  rw [if_pos ⟨hflags, be16_value hi⟩, hclean, be16_value hk]
  rfl

/-- **A CONNECT packet is read back as it was written.** -/
theorem decodeConnect_encode (p : Connect) (hk : p.keepAlive < 65536)
    (hn : p.clientId.length < 65536) (rest : List UInt8) :
    decodeConnect (p.encode ++ rest) = some (p, rest) := by
  have hlen : p.body.length < 128 ^ 4 := by
    rw [p.body_length]
    omega
  have hbody : cut protocol.length p.body = some (protocol, p.fields) := cut_append _ _
  show decodeConnect (0x10 :: (encode p.body.length ++ p.body ++ rest)) = _
  rw [decodeConnect, if_pos rfl, List.append_assoc, decode_encode hlen]
  simp only [Option.bind_some, cut_append, hbody, if_true, decodeFields_fields p hk hn,
    Option.map_some]

/-- What a packet that was read leaves of the text after the remaining length. -/
theorem decodeConnect_rest {n : Nat} {q : Connect} {l' : List UInt8}
    (hd : decode 4 l = some (n, l')) (h : decodeConnect (0x10 :: l) = some (q, rest)) :
    rest.length + n = l'.length := by
  rw [decodeConnect, if_pos rfl, hd, Option.bind_some] at h
  obtain ⟨body, hc, hbody⟩ := Option.bind_eq_some_iff.mp h
  obtain ⟨name, -, hname⟩ := Option.bind_eq_some_iff.mp hbody
  split at hname
  · obtain ⟨p', -, hp'⟩ := Option.map_eq_some_iff.mp hname
    cases hp'
    exact (cut_length hc).2
  · cases hname

end OSCompas.Mqtt
