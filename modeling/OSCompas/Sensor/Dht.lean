import OSCompas.Lib.Wave
import Mathlib.Data.BitVec

/-!
# Reading the sensor (`lab5-2-iot-sensor-rtos/src/sensor_dht.c`)

* `Pin`, `pinMode`, `pinWrite`, `pinRead`, `dhtDelayUs` — the data pin with the sensor on its line;
* `dhtStartSignal`, `dhtWaitResponse`, `dhtReadByte`, `dhtSensorRead` — the driver;
* `Reply` — how a DHT11 answers the start signal.

`dht_wait_response` returns as soon as the sensor pulls the line up, and the loop of `dht_read_byte`
does not wait for the end of that high: its first sample falls into it, and every bit is taken one
place late.

Principal results: `dhtSensorRead_spec` and `read_faithful_iff`.
-/

set_option autoImplicit false

namespace OSCompas.Sensor

open Wave

/-! ## The pin -/

abbrev Byte := BitVec 8

/-- The data pin: its mode, what it drives in output mode, for how long it has driven low, how the
sensor answers a start signal, and what the sensor does with the line from now on. -/
structure Pin where
  output : Bool
  value : Bool
  lowFor : ℚ
  answer : Line
  line : Line

namespace Pin

/-- `dht_pin_mode`. -/
def pinMode (output : Bool) (p : Pin) : Pin := { p with output }

/-- `rt_pin_write(dht_pin, v)`: after 18 ms of low the sensor begins to answer. -/
def pinWrite (v : Bool) (p : Pin) : Pin :=
  { p with
    value := v
    lowFor := 0
    line := if p.output && v && !p.value && 18000 ≤ p.lowFor then p.answer else p.line }

/-- `rt_pin_read(dht_pin)`. -/
def pinRead (p : Pin) : Bool := if p.output then p.value else level p.line

/-- `dht_delay_us(us)`. -/
def dhtDelayUs (us : ℚ) (p : Pin) : Pin :=
  { p with
    lowFor := if p.output && !p.value then p.lowFor + us else p.lowFor
    line := pass us p.line }

/-- `while (rt_pin_read(dht_pin) != b);` -/
def await (b : Bool) (p : Pin) : Option Pin :=
  if p.output then if p.value = b then some p else none
  else (Wave.await b p.line).map fun line => { p with line }

/-- `while (rt_pin_read(dht_pin) != b && timeout < 100) { timeout++; dht_delay_us(1); }` with so
many turns left, and no pin when `timeout` got to 100. -/
def poll (b : Bool) : Nat → Pin → Option Pin
  | 0, _ => none
  | left + 1, p => if p.pinRead = b then some p else poll b left (p.dhtDelayUs 1)

end Pin

/-! ## The driver -/

/-- `dht_start_signal`. -/
def dhtStartSignal (p : Pin) : Pin :=
  let p := p.pinMode true
  let p := p.pinWrite false
  let p := p.dhtDelayUs 20000
  let p := p.pinWrite true
  let p := p.dhtDelayUs 30
  p.pinMode false

/-- `dht_wait_response`; no pin is `-RT_ERROR`. -/
def dhtWaitResponse (p : Pin) : Option Pin := do
  let p ← p.poll false 100
  p.poll true 100

/-- One turn of the loop of `dht_read_byte`. -/
def dhtReadBit (q : Byte × Pin) (i : Nat) : Option (Byte × Pin) := do
  let p ← q.2.await true
  let p := p.dhtDelayUs 40
  if p.pinRead then
    let p ← p.await false
    return (q.1 ||| 1#8 <<< (7 - i), p)
  return (q.1, p)

/-- `dht_read_byte`; no byte when it waits forever. -/
def dhtReadByte (p : Pin) : Option (Byte × Pin) := (List.range 8).foldlM dhtReadBit (0#8, p)

def RT_EOK : Int := 0
def RT_ERROR : Int := 1
def DHT11 : Nat := 1

/-- What `dht_sensor_read` returns, and what is in `*temperature` and `*humidity` then. -/
structure SensorRead where
  ret : Int
  temperature : ℚ
  humidity : ℚ
  deriving DecidableEq

/-- Five bytes of data. -/
structure Frame where
  b0 : Byte
  b1 : Byte
  b2 : Byte
  b3 : Byte
  b4 : Byte
  deriving DecidableEq

/-- The fifth is the sum of the others. -/
def Frame.ChecksumOk (f : Frame) : Prop := f.b0 + f.b1 + f.b2 + f.b3 = f.b4

instance (f : Frame) : Decidable f.ChecksumOk := inferInstanceAs (Decidable (_ = _))

/-- The loop of `dht_sensor_read` over `data`. -/
def dhtReadData (p : Pin) : Option Frame := do
  let (b0, p) ← dhtReadByte p
  let (b1, p) ← dhtReadByte p
  let (b2, p) ← dhtReadByte p
  let (b3, p) ← dhtReadByte p
  let (b4, _) ← dhtReadByte p
  return ⟨b0, b1, b2, b3, b4⟩

/-- `dht_sensor_read`, for what is in `sensor_type`, `*temperature` and `*humidity`; nothing when it
does not return. -/
def dhtSensorRead (sensorType : Nat) (p : Pin) (temperature humidity : ℚ) : Option SensorRead :=
  match dhtWaitResponse (dhtStartSignal p) with
  | none => some ⟨-RT_ERROR, temperature, humidity⟩
  | some p => do
    let data ← dhtReadData p
    if ¬ data.ChecksumOk then return ⟨-RT_ERROR, temperature, humidity⟩
    if sensorType = DHT11 then return ⟨RT_EOK, data.b2.toNat, data.b0.toNat⟩
    return ⟨RT_EOK, temperature, humidity⟩

/-! ## The sensor -/

/-- The bits of a byte, the most significant first. -/
def byteBits (b : Byte) : List Bool := (List.range 8).map b.getMsbD

def Frame.bits (f : Frame) : List Bool :=
  byteBits f.b0 ++ byteBits f.b1 ++ byteBits f.b2 ++ byteBits f.b3 ++ byteBits f.b4

/-- The bits on the line from the `k`-th on, and the low after the last one. -/
def dataLine (zero : Nat → ℚ) : Nat → List Bool → Line
  | _, [] => [⟨false, 50⟩]
  | k, b :: bits =>
    ⟨false, 50⟩ :: ⟨true, if b then 70 else zero k⟩ :: dataLine zero (k + 1) bits

/-- An answer: how long after the release of the line it begins, the data, and how long the line is
high for a 0 at each place. -/
structure Reply where
  delay : ℚ
  frame : Frame
  zero : Nat → ℚ
  delay_nonneg : 0 ≤ delay
  zero_mem : ∀ k, 26 ≤ zero k ∧ zero k ≤ 28

/-- The line from its release on. -/
def Reply.line (r : Reply) : Line :=
  ⟨true, r.delay⟩ :: ⟨false, 80⟩ :: ⟨true, 80⟩ :: dataLine r.zero 0 r.frame.bits

variable {r : Reply} {p : Pin} {line : Line} {zero : Nat → ℚ} {b : Bool} {bits rest : List Bool}
  {data : Byte} {i k : Nat} {d t : ℚ} {f : Frame}

/-! ## The handshake -/

/-- The pin as an input, with the line. -/
def Pin.listening (p : Pin) (line : Line) : Pin := ⟨false, true, 0, p.answer, line⟩

@[simp] theorem pinRead_listening : (p.listening line).pinRead = level line := rfl

@[simp] theorem delay_listening : (p.listening line).dhtDelayUs d = p.listening (pass d line) := rfl

theorem await_listening :
    (p.listening line).await b = (Wave.await b line).map p.listening := rfl

theorem poll_listening {n : Nat} :
    (p.listening line).poll b n = (Wave.poll b n line).map p.listening := by
  induction n generalizing line with
  | zero => rfl
  | succ n ih =>
    rw [Pin.poll, Wave.poll, pinRead_listening]
    split
    · rfl
    · rw [delay_listening, ih]

/-- The start signal is one: 30 µs after the release of the line we listen to the answer. -/
theorem dhtStartSignal_spec : dhtStartSignal p = p.listening (pass 30 p.answer) := by
  have h18 : (18000 : ℚ) ≤ 20000 := by norm_num
  simp [dhtStartSignal, Pin.pinMode, Pin.pinWrite, Pin.dhtDelayUs, Pin.listening, h18]

/-- The answer is heard if it begins at most 99 µs after the start signal. -/
theorem dhtWaitResponse_spec (hr : r.delay ≤ 129) :
    ∃ t, 40 < t ∧ dhtWaitResponse (p.listening (pass 30 r.line)) =
      some (p.listening (⟨true, t⟩ :: dataLine r.zero 0 r.frame.bits)) := by
  have hlow : ∃ u, 0 < u ∧ u ≤ 80 ∧ Wave.poll false 100 (pass 30 r.line) =
      some (⟨false, u⟩ :: ⟨true, 80⟩ :: dataLine r.zero 0 r.frame.bits) := by
    have h0 := r.delay_nonneg
    by_cases h30 : 30 < r.delay
    · obtain ⟨u, hu, hu', hpoll⟩ := poll_stretch (b := false) (t := r.delay - 30) (n := 99)
        (u := 80) (l := ⟨true, 80⟩ :: dataLine r.zero 0 r.frame.bits) (by linarith)
        (by norm_num; linarith) (by norm_num)
      rw [Reply.line, pass_within h30]
      exact ⟨u, by linarith, hu', hpoll⟩
    · rw [Reply.line, pass_beyond (not_lt.mp h30), pass_within (by linarith)]
      exact ⟨80 - (30 - r.delay), by linarith, by linarith, poll_at⟩
  obtain ⟨u, hpos, hu, hlow⟩ := hlow
  obtain ⟨t, ht, -, hhigh⟩ := poll_stretch (b := true) (t := u) (n := 99) (u := 80)
    (l := dataLine r.zero 0 r.frame.bits) hpos (by norm_num; linarith) (by norm_num)
  refine ⟨t, by linarith, ?_⟩
  have h1 : (p.listening (pass 30 r.line)).poll false 100 =
      some (p.listening (⟨false, u⟩ :: ⟨true, 80⟩ :: dataLine r.zero 0 r.frame.bits)) := by
    rw [poll_listening, hlow]
    rfl
  have h2 : (p.listening (⟨false, u⟩ :: ⟨true, 80⟩ :: dataLine r.zero 0 r.frame.bits)).poll true
      100 = some (p.listening (⟨true, t⟩ :: dataLine r.zero 0 r.frame.bits)) := by
    rw [poll_listening]
    exact congrArg (Option.map p.listening) hhigh
  rw [dhtWaitResponse, h1]
  exact h2

theorem dhtWaitResponse_late (hr : 129 < r.delay) :
    dhtWaitResponse (p.listening (pass 30 r.line)) = none := by
  have hpoll : Wave.poll false 100 (pass 30 r.line) = none := by
    rw [Reply.line, pass_within (by linarith)]
    apply poll_late
    · norm_num
      linarith
    · linarith
  have h1 : (p.listening (pass 30 r.line)).poll false 100 = none := by
    rw [poll_listening, hpoll]
    rfl
  rw [dhtWaitResponse, h1]
  rfl

/-! ## The bits -/

/-- The samples to come: those of a data line whose first low may have begun, or the high of the
answer and then a whole data line. -/
def Ready (zero : Nat → ℚ) (samples : List Bool) (line : Line) : Prop :=
  (∃ k t, line = ⟨false, t⟩ :: (dataLine zero k samples).tail) ∨
  ∃ t bits, 40 < t ∧ samples = true :: bits ∧ line = ⟨true, t⟩ :: dataLine zero 0 bits

theorem dataLine_ready : Ready zero bits (dataLine zero k bits) := by
  cases bits with
  | nil => exact .inl ⟨k, 50, rfl⟩
  | cons b bits => exact .inl ⟨k, 50, rfl⟩

/-- `data |= (1 << (7 - i))`, if the line is high. -/
def store (data : Byte) (i : Nat) (b : Bool) : Byte :=
  if b then data ||| 1#8 <<< (7 - i) else data

/-- A high of more than 40 µs is a 1, and is waited out. -/
theorem dhtReadBit_high (data : Byte) (i : Nat) (ht : 40 < t)
    (hwait : Wave.await true line = some (⟨true, t⟩ :: dataLine zero k bits)) :
    dhtReadBit (data, p.listening line) i =
      some (store data i true, p.listening (dataLine zero k bits)) := by
  have hlow : Wave.await false (⟨true, t - 40⟩ :: dataLine zero k bits) =
      some (dataLine zero k bits) := by
    cases bits <;> rfl
  simp [dhtReadBit, await_listening, hwait, pass_within ht, hlow, store]

/-- A shorter one is a 0. -/
theorem dhtReadBit_low (data : Byte) (i : Nat) (ht : t ≤ 40) (h10 : -10 < t)
    (hwait : Wave.await true line = some (⟨true, t⟩ :: dataLine zero k bits)) :
    ∃ u, dhtReadBit (data, p.listening line) i =
      some (store data i false, p.listening (⟨false, u⟩ :: (dataLine zero k bits).tail)) := by
  have hpass : pass (40 - t) (dataLine zero k bits) =
      ⟨false, 50 - (40 - t)⟩ :: (dataLine zero k bits).tail := by
    cases bits with
    | nil => exact pass_within (by linarith)
    | cons b bits => exact pass_within (by linarith)
  refine ⟨50 - (40 - t), ?_⟩
  simp [dhtReadBit, await_listening, hwait, pass_beyond ht, hpass, store]

/-- **One sample.** -/
theorem dhtReadBit_spec (hz : ∀ k, 26 ≤ zero k ∧ zero k ≤ 28) (data : Byte) (i : Nat)
    (h : Ready zero (b :: bits) line) :
    ∃ line', dhtReadBit (data, p.listening line) i = some (store data i b, p.listening line') ∧
      Ready zero bits line' := by
  rcases h with ⟨k, t, rfl⟩ | ⟨t, bits', ht, hbits, rfl⟩
  · have hwait : Wave.await true (⟨false, t⟩ :: (dataLine zero k (b :: bits)).tail) =
        some (⟨true, if b then 70 else zero k⟩ :: dataLine zero (k + 1) bits) := rfl
    cases b with
    | true => exact ⟨_, dhtReadBit_high data i (by norm_num) hwait, dataLine_ready⟩
    | false =>
      have hk := hz k
      obtain ⟨u, hread⟩ := dhtReadBit_low (p := p) data i (show zero k ≤ 40 by linarith)
        (by linarith) hwait
      exact ⟨_, hread, .inl ⟨_, u, rfl⟩⟩
  · cases hbits
    exact ⟨_, dhtReadBit_high data i ht await_at, dataLine_ready⟩

/-- The byte of eight samples. -/
def byteOf (bits : List Bool) : Byte :=
  ((List.range 8).zip bits).foldl (fun data q => store data q.1 q.2) 0#8

theorem byteOf_byteBits : ∀ b : Byte, byteOf (byteBits b) = b := by
  decide +kernel

theorem readBits_spec (hz : ∀ k, 26 ≤ zero k ∧ zero k ≤ 28) (data : Byte) (places : List Nat)
    (hlen : places.length = bits.length) (h : Ready zero (bits ++ rest) line) :
    ∃ line', places.foldlM dhtReadBit (data, p.listening line) =
      some ((places.zip bits).foldl (fun data q => store data q.1 q.2) data, p.listening line') ∧
      Ready zero rest line' := by
  induction places generalizing bits data line with
  | nil =>
    cases bits with
    | nil => exact ⟨line, rfl, h⟩
    | cons b bits => cases hlen
  | cons i places ih =>
    cases bits with
    | nil => cases hlen
    | cons b bits =>
      obtain ⟨line', hread, h'⟩ := dhtReadBit_spec (p := p) hz data i h
      obtain ⟨line'', hrest, h''⟩ := ih (store data i b) (Nat.succ.inj hlen) h'
      refine ⟨line'', ?_, h''⟩
      rw [List.foldlM_cons, hread]
      exact hrest

/-- **One byte.** -/
theorem dhtReadByte_spec (hz : ∀ k, 26 ≤ zero k ∧ zero k ≤ 28) (b : Byte)
    (h : Ready zero (byteBits b ++ rest) line) :
    ∃ line', dhtReadByte (p.listening line) = some (b, p.listening line') ∧
      Ready zero rest line' := by
  obtain ⟨line', hread, h'⟩ := readBits_spec (p := p) hz 0#8 (List.range 8)
    (by simp [byteBits]) h
  rw [← byteOf_byteBits b]
  exact ⟨line', hread, h'⟩

/-- **Five bytes.** -/
theorem dhtReadData_spec (hz : ∀ k, 26 ≤ zero k ∧ zero k ≤ 28) (f : Frame)
    (h : Ready zero (f.bits ++ rest) line) : dhtReadData (p.listening line) = some f := by
  simp only [Frame.bits, List.append_assoc] at h
  obtain ⟨line0, h0, h⟩ := dhtReadByte_spec (p := p) hz f.b0 h
  obtain ⟨line1, h1, h⟩ := dhtReadByte_spec (p := p) hz f.b1 h
  obtain ⟨line2, h2, h⟩ := dhtReadByte_spec (p := p) hz f.b2 h
  obtain ⟨line3, h3, h⟩ := dhtReadByte_spec (p := p) hz f.b3 h
  obtain ⟨line4, h4, -⟩ := dhtReadByte_spec (p := p) hz f.b4 h
  simp [dhtReadData, h0, h1, h2, h3, h4]

/-! ## What is read -/

/-- A byte with a bit pushed in at the top. -/
def shiftIn (c : Bool) (b : Byte) : Byte := (BitVec.ofBool c).zeroExtend 8 <<< 7 ||| b >>> 1

/-- The frame one bit late: a 1, and then the first 39 bits. -/
def Frame.late (f : Frame) : Frame where
  b0 := shiftIn true f.b0
  b1 := shiftIn (f.b0.getLsbD 0) f.b1
  b2 := shiftIn (f.b1.getLsbD 0) f.b2
  b3 := shiftIn (f.b2.getLsbD 0) f.b3
  b4 := shiftIn (f.b3.getLsbD 0) f.b4

theorem getMsbD_shiftIn_zero (c : Bool) (b : Byte) : (shiftIn c b).getMsbD 0 = c := by
  simp [shiftIn, BitVec.getMsbD]

theorem getMsbD_shiftIn_succ (c : Bool) (b : Byte) (hi : i < 7) :
    (shiftIn c b).getMsbD (i + 1) = b.getMsbD i := by
  have h8 : i < 8 := by omega
  have h7 : 6 - i < 7 := by omega
  have hsucc : i + 1 < 8 := by omega
  have hplace : 1 + (6 - i) = 7 - i := by omega
  simp [shiftIn, BitVec.getMsbD, h8, h7, hsucc, hplace]

theorem byteBits_shiftIn (c : Bool) (b : Byte) :
    c :: byteBits b = byteBits (shiftIn c b) ++ [b.getLsbD 0] := by
  have hfirst (b : Byte) :
      byteBits b = b.getMsbD 0 :: (List.range 7).map fun i => b.getMsbD (i + 1) := rfl
  have hlast : byteBits b = (List.range 7).map b.getMsbD ++ [b.getMsbD 7] := rfl
  have hmove : (List.range 7).map (fun i => (shiftIn c b).getMsbD (i + 1)) =
      (List.range 7).map b.getMsbD :=
    List.map_congr_left fun i hi => getMsbD_shiftIn_succ c b (List.mem_range.mp hi)
  rw [hfirst (shiftIn c b), hlast, hmove, getMsbD_shiftIn_zero]
  rfl

theorem late_bits (f : Frame) : true :: f.bits = f.late.bits ++ [f.b4.getLsbD 0] := by
  have hmove (c : Bool) (b : Byte) (bits : List Bool) :
      c :: (byteBits b ++ bits) = byteBits (shiftIn c b) ++ b.getLsbD 0 :: bits := by
    rw [← List.cons_append, byteBits_shiftIn, List.append_assoc, List.singleton_append]
  simp only [Frame.bits, List.append_assoc, Frame.late, hmove, byteBits_shiftIn]

/-- **The driver checks and reports the frame one bit late.** -/
theorem dhtSensorRead_spec (hp : p.answer = r.line) (hr : r.delay ≤ 129)
    (temperature humidity : ℚ) :
    dhtSensorRead DHT11 p temperature humidity =
      some (if r.frame.late.ChecksumOk then
          ⟨RT_EOK, r.frame.late.b2.toNat, r.frame.late.b0.toNat⟩
        else ⟨-RT_ERROR, temperature, humidity⟩) := by
  obtain ⟨t, ht, hwait⟩ := dhtWaitResponse_spec (p := p) hr
  have hready : Ready r.zero (r.frame.late.bits ++ [r.frame.b4.getLsbD 0])
      (⟨true, t⟩ :: dataLine r.zero 0 r.frame.bits) :=
    .inr ⟨t, r.frame.bits, ht, (late_bits r.frame).symm, rfl⟩
  have hdata := dhtReadData_spec (p := p) r.zero_mem r.frame.late hready
  unfold dhtSensorRead
  rw [dhtStartSignal_spec, hp, hwait]
  by_cases hsum : r.frame.late.ChecksumOk
  · simp [hdata, hsum]
  · simp [hdata, hsum]

theorem dhtSensorRead_late (hp : p.answer = r.line) (hr : 129 < r.delay)
    (temperature humidity : ℚ) :
    dhtSensorRead DHT11 p temperature humidity = some ⟨-RT_ERROR, temperature, humidity⟩ := by
  unfold dhtSensorRead
  rw [dhtStartSignal_spec, hp, dhtWaitResponse_late hr]

/-! ## Faithful reading -/

/-- A right frame is reported, and a wrong one is an error that changes nothing. -/
def Faithful (f : Frame) (temperature humidity : ℚ) (out : SensorRead) : Prop :=
  (f.ChecksumOk → out = ⟨RT_EOK, f.b2.toNat, f.b0.toNat⟩) ∧
  (¬ f.ChecksumOk → out.ret ≠ RT_EOK ∧ out.temperature = temperature ∧ out.humidity = humidity)

/-- The frames that mean the same one bit late. -/
def Frame.Spared (f : Frame) : Prop :=
  if f.ChecksumOk then
    f.b0 = 255 ∧ f.b2 = (if f.b1.getLsbD 0 then 255 else 0) ∧ f.late.ChecksumOk
  else ¬ f.late.ChecksumOk

/-- The answer is in time and its frame is spared, or it is late and its frame wrong anyway. -/
def Reply.Spared (r : Reply) : Prop :=
  if r.delay ≤ 129 then r.frame.Spared else ¬ r.frame.ChecksumOk

theorem shiftIn_eq : ∀ (c : Bool) (b : Byte), shiftIn c b = b ↔ b = if c then 255 else 0 := by
  decide +kernel

theorem shiftIn_true_eq (b : Byte) : shiftIn true b = b ↔ b = 255 := shiftIn_eq true b

/-- **A reading is faithful exactly when the answer is spared.** -/
theorem read_faithful_iff (r : Reply) (p : Pin) (temperature humidity : ℚ)
    (hp : p.answer = r.line) :
    (∃ out, dhtSensorRead DHT11 p temperature humidity = some out ∧
      Faithful r.frame temperature humidity out) ↔ r.Spared := by
  by_cases hlate : r.delay ≤ 129
  · rw [dhtSensorRead_spec hp hlate, Reply.Spared, if_pos hlate, Frame.Spared]
    by_cases hsum : r.frame.ChecksumOk
    · rw [if_pos hsum, ← shiftIn_true_eq, ← shiftIn_eq]
      have h0 : shiftIn true r.frame.b0 = r.frame.late.b0 := rfl
      have h2 : shiftIn (r.frame.b1.getLsbD 0) r.frame.b2 = r.frame.late.b2 := rfl
      rw [h0, h2]
      by_cases hlsum : r.frame.late.ChecksumOk
      · simp [Faithful, hsum, hlsum, BitVec.toNat_inj, and_comm]
      · simp [Faithful, hsum, hlsum, RT_EOK, RT_ERROR]
    · rw [if_neg hsum]
      by_cases hlsum : r.frame.late.ChecksumOk
      · simp [Faithful, hsum, hlsum]
      · simp [Faithful, hsum, hlsum, RT_EOK, RT_ERROR]
  · rw [dhtSensorRead_late hp (not_le.mp hlate), Reply.Spared, if_neg hlate]
    by_cases hsum : r.frame.ChecksumOk
    · simp [Faithful, hsum, RT_EOK, RT_ERROR]
    · simp [Faithful, hsum, RT_EOK, RT_ERROR]

/-- The pin after `dht_sensor_init`, with a sensor that will answer like that. -/
def dhtSensorInit (answer : Line) : Pin := ⟨false, true, 0, answer, []⟩

/-- An answer 25 µs after the release, with 27 µs for every 0. -/
def Reply.typical (f : Frame) : Reply where
  delay := 25
  frame := f
  zero := fun _ => 27
  delay_nonneg := by norm_num
  zero_mem := fun _ => by norm_num

/-- Humidity 255 and temperature 0. -/
theorem read_faithful_spared :
    ∃ out, dhtSensorRead DHT11 (dhtSensorInit (Reply.typical ⟨255, 0, 0, 0, 255⟩).line) 20 50 =
      some out ∧ Faithful ⟨255, 0, 0, 0, 255⟩ 20 50 out := by
  have hspared : (Reply.typical ⟨255, 0, 0, 0, 255⟩).Spared := by
    have h129 : (25 : ℚ) ≤ 129 := by norm_num
    have hframe : Frame.Spared ⟨255, 0, 0, 0, 255⟩ := by
      unfold Frame.Spared
      decide
    exact (if_pos h129).mpr hframe
  exact (read_faithful_iff (Reply.typical ⟨255, 0, 0, 0, 255⟩) _ 20 50 rfl).mpr hspared

/-- Humidity 45 and temperature 23 come with a right checksum and are refused. -/
theorem read_not_faithful : ¬ ∀ (r : Reply) (p : Pin) (temperature humidity : ℚ),
    p.answer = r.line → r.delay ≤ 100 →
    ∃ out, dhtSensorRead DHT11 p temperature humidity = some out ∧
      Faithful r.frame temperature humidity out := by
  intro hall
  obtain ⟨out, hout, hright, -⟩ := hall (Reply.typical ⟨45, 0, 23, 0, 68⟩)
    (dhtSensorInit (Reply.typical ⟨45, 0, 23, 0, 68⟩).line) 20 50 rfl
    (show (25 : ℚ) ≤ 100 by norm_num)
  have hsum : (Reply.typical ⟨45, 0, 23, 0, 68⟩).frame.ChecksumOk := by decide
  have hlate : ¬ (Reply.typical ⟨45, 0, 23, 0, 68⟩).frame.late.ChecksumOk := by decide
  have hspec := dhtSensorRead_spec (r := Reply.typical ⟨45, 0, 23, 0, 68⟩)
    (p := dhtSensorInit (Reply.typical ⟨45, 0, 23, 0, 68⟩).line) rfl
    (show (25 : ℚ) ≤ 129 by norm_num) 20 50
  have hret := congrArg SensorRead.ret (Option.some.inj (hspec.symm.trans hout))
  rw [if_neg hlate, hright hsum] at hret
  exact absurd hret (by decide)

end OSCompas.Sensor
