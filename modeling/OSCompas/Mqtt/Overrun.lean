import OSCompas.Mqtt.Connect

/-!
# The arrays of the packets (`lab5-2-iot-sensor-rtos/src/mqtt_client.c`)

Both packets are built in a `char` array of fixed size in the caller's frame, and neither builder
is told how large it is.

* `Cursor.Covers` — what lies before the pointer has been written;
* `publishWrites`, `connectWrites` — the indices of `publish_packet` and of `connect_packet` that a
  call writes to;
* `PublishFits` — all of them lie in the array.

Principal results: `mem_publishWrites`, `publish_fits_iff` and `connectWrites_lt`.
-/

set_option autoImplicit false

namespace OSCompas.Mqtt

open Wifi

/-! ## The indices -/

variable {buffer : Buffer} {c : Cursor} {topic data id : CString} {i : Nat}

/-- Everything before the pointer has been written. -/
def Cursor.Covers (c : Cursor) : Prop := ∀ i < c.p, i ∈ c.buffer.written

theorem Cursor.Covers.put (h : c.Covers) (v : UInt8) : (c.put v).Covers := by
  intro i hi
  rcases Nat.lt_succ_iff_lt_or_eq.mp hi with hlt | rfl
  · exact List.mem_cons_of_mem _ (h i hlt)
  · exact List.mem_cons_self

theorem Cursor.Covers.memcpy (h : c.Covers) (l : List UInt8) : (c.memcpy l).Covers := by
  induction l generalizing c with
  | nil => exact h
  | cons v l ih => exact ih (h.put v)

/-- A write keeps what has been written. -/
theorem mem_written_set {b : Buffer} (h : i ∈ b.written) (j : Nat) (v : UInt8) :
    i ∈ (b.set j v).written := List.mem_cons_of_mem _ h

theorem mem_written_putRemaining {b : Buffer} (h : i ∈ b.written) (n : Nat) :
    i ∈ (putRemaining b n).written := by
  unfold putRemaining
  dsimp only
  split
  · exact mem_written_set (mem_written_set (mem_written_set h _ _) _ _) _ _
  · exact mem_written_set h _ _

/-- **`mqtt_build_publish_packet` writes to every index below the size it returns and to no
other.** -/
theorem mem_mqttBuildPublishPacket (bytes : Nat → UInt8) (topic data : CString) (i : Nat) :
    i ∈ (mqttBuildPublishPacket ⟨bytes, []⟩ topic data).1.written ↔ i < packetSize topic data := by
  rw [← publishFields_p ⟨bytes, []⟩]
  refine ⟨mqttBuildPublishPacket_written bytes topic data i, fun hi => ?_⟩
  have hempty : (Cursor.mk ⟨bytes, []⟩ 0).Covers := fun i hi => absurd hi (Nat.not_lt_zero i)
  have hfields : (publishFields ⟨bytes, []⟩ topic data).Covers :=
    (((((hempty.put _).put _).put _).put _).memcpy _).memcpy _
  exact mem_written_putRemaining (hfields i hi) _

/-! ## Publishing -/

/-- `sizeof(publish_packet)`. -/
def PUBLISH_PACKET_SIZE : Nat := 512

/-- The indices of `publish_packet` that `mqtt_publish_data` writes to.  A call that is not
connected, and one that does not get the mutex, builds no packet. -/
def publishWrites (client : Client) (bytes : Nat → UInt8) (topic data : CString) : List Nat :=
  if client.state ≠ .connected then []
  else if ¬ client.mutex then []
  else (mqttBuildPublishPacket ⟨bytes, []⟩ topic data).1.written

variable {client : Client} {bytes : Nat → UInt8} {replies : TcpReplies}

theorem mem_publishWrites (client : Client) (bytes : Nat → UInt8) (topic data : CString) (i : Nat) :
    i ∈ publishWrites client bytes topic data ↔
      client.state = .connected ∧ client.mutex = true ∧ i < packetSize topic data := by
  unfold publishWrites
  split
  · rename_i hs
    exact iff_of_false List.not_mem_nil fun h => hs h.1
  · rename_i hs
    split
    · rename_i hm
      exact iff_of_false List.not_mem_nil fun h => hm h.2.1
    · rename_i hm
      rw [mem_mqttBuildPublishPacket]
      exact ⟨fun h => ⟨not_not.mp hs, not_not.mp hm, h⟩, fun h => h.2.2⟩

/-- Every byte that the call writes lies in `publish_packet`. -/
def PublishFits (client : Client) (bytes : Nat → UInt8) (topic data : CString) : Prop :=
  ∀ i ∈ publishWrites client bytes topic data, i < PUBLISH_PACKET_SIZE

/-- **A connected client stays in its array exactly up to 508 bytes of topic and data**, each
counted modulo 65536. -/
theorem publish_fits_iff (client : Client) (bytes : Nat → UInt8) (topic data : CString) :
    PublishFits client bytes topic data ↔
      (client.state = .connected → client.mutex = true →
        topic.length % 65536 + data.length % 65536 ≤ 508) := by
  constructor
  · intro h hs hm
    by_contra hlong
    have hlast : PUBLISH_PACKET_SIZE < packetSize topic data := by
      unfold PUBLISH_PACKET_SIZE packetSize
      omega
    have hmem := (mem_publishWrites client bytes topic data _).mpr ⟨hs, hm, hlast⟩
    exact lt_irrefl _ (h _ hmem)
  · intro h i hi
    obtain ⟨hs, hm, hlt⟩ := (mem_publishWrites client bytes topic data i).mp hi
    have hsize := h hs hm
    unfold packetSize at hlt
    unfold PUBLISH_PACKET_SIZE
    omega

/-- The client after a start that went well. -/
def connectedClient : Client := (mqttClientInit .initial true (fun _ => 0) 0 taken).2

/-- A topic of 17 and data of 492 characters. -/
theorem publish_overruns_509 :
    (mqttClientInit .initial true (fun _ => 0) 0 taken).1 = .ok ∧
    ¬ PublishFits connectedClient (fun _ => 0) (letters 17) (letters 492) := by
  have htopic : (letters 17).length = 17 := List.length_replicate
  have hdata : (letters 492).length = 492 := List.length_replicate
  refine ⟨by decide, fun h => ?_⟩
  have hmem : 512 ∈ publishWrites connectedClient (fun _ => 0) (letters 17) (letters 492) := by
    refine (mem_publishWrites _ _ _ _ _).mpr ⟨by decide, by decide, ?_⟩
    rw [packetSize, htopic, hdata]
    omega
  exact lt_irrefl _ (h 512 hmem)

/-! ## Connecting -/

/-- `sizeof(connect_packet)`. -/
def CONNECT_PACKET_SIZE : Nat := 256

/-- The indices of `connect_packet` that `mqtt_connect_to_broker` writes to. -/
def connectWrites (bytes : Nat → UInt8) (tick : UInt32) : List Nat :=
  (mqttBuildConnectPacket ⟨bytes, []⟩ (clientId tick)).1.written

/-- Nothing is written past the size returned. -/
theorem mqttBuildConnectPacket_written (bytes : Nat → UInt8) (id : CString) :
    ∀ i ∈ (mqttBuildConnectPacket ⟨bytes, []⟩ id).1.written, i < connectSize id := by
  have hempty : (Cursor.mk ⟨bytes, []⟩ 0).Behind := nofun
  have hfields : (connectFields ⟨bytes, []⟩ id).Behind :=
    ((((((((((((((hempty.put _).put _).put _).put _).put _).put _).put _).put _).put _).put _).put
      _).put _).put _).put _).memcpy _
  have hsize : 2 < connectSize id := by
    unfold connectSize
    omega
  have hbehind : ∀ i ∈ (connectFields ⟨bytes, []⟩ id).buffer.written, i < connectSize id := by
    rw [← connectFields_p ⟨bytes, []⟩ id]
    exact hfields
  intro i hi
  simp only [mqttBuildConnectPacket] at hi
  split at hi
  · simp only [Buffer.set, List.mem_cons] at hi
    rcases hi with rfl | rfl | rfl | rfl | hi
    · exact hsize
    · omega
    · omega
    · omega
    · exact hbehind i hi
  · simp only [Buffer.set, List.mem_cons] at hi
    rcases hi with rfl | hi
    · omega
    · exact hbehind i hi

/-- **Connecting stays in its array**, whatever the tick. -/
theorem connectWrites_lt (bytes : Nat → UInt8) (tick : UInt32) :
    ∀ i ∈ connectWrites bytes tick, i < CONNECT_PACKET_SIZE := by
  intro i hi
  have hlt := mqttBuildConnectPacket_written bytes (clientId tick) i hi
  rw [connectSize, clientId_length] at hlt
  unfold CONNECT_PACKET_SIZE
  omega

end OSCompas.Mqtt
