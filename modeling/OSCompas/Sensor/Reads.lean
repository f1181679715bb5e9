import OSCompas.Lib.Samples
import OSCompas.Sensor.Dht

/-!
# The reads of the data pin (`lab5-2-iot-sensor-rtos/src/sensor_dht.c`)

The driver once more, now with nothing known about the line: `w` says what the successive calls of
`rt_pin_read` return, and every `dht_delay_us` returns.  A loop without a counter is given so many
rounds.

* `dhtWaitResponse`, `dhtReadByte`, `dhtSensorRead` — the driver, with the number of reads made;
* `Returns` — some number of rounds is enough;
* `Answers` — the handshake succeeds with its last read before `p`.

The two loops of `dht_wait_response` count to 100; the two of `dht_read_byte` do not count.

Principal results: `takes_data` and `sensor_read_returns_iff`.
-/

set_option autoImplicit false

namespace OSCompas.Sensor.Reads

open Samples

/-! ## The driver -/

/-- `dht_wait_response`: whether it succeeds, and the reads made. -/
def dhtWaitResponse (w : Nat → Bool) : Bool × Nat :=
  let low := poll w false 100 0
  if ¬ low.1 then low else poll w true 100 low.2

/-- One turn of the loop of `dht_read_byte`. -/
def dhtReadBit (w : Nat → Bool) (fuel : Nat) (q : Byte × Nat) (i : Nat) : Option (Byte × Nat) := do
  let n ← await w true fuel q.2
  if w n then
    let n ← await w false fuel (n + 1)
    return (q.1 ||| 1#8 <<< (7 - i), n)
  return (q.1, n + 1)

/-- `dht_read_byte`. -/
def dhtReadByte (w : Nat → Bool) (fuel n : Nat) : Option (Byte × Nat) :=
  (List.range 8).foldlM (dhtReadBit w fuel) (0#8, n)

/-- The loop of `dht_sensor_read` over `data`. -/
def dhtReadData (w : Nat → Bool) (fuel n : Nat) : Option (Frame × Nat) := do
  let (b0, n) ← dhtReadByte w fuel n
  let (b1, n) ← dhtReadByte w fuel n
  let (b2, n) ← dhtReadByte w fuel n
  let (b3, n) ← dhtReadByte w fuel n
  let (b4, n) ← dhtReadByte w fuel n
  return (⟨b0, b1, b2, b3, b4⟩, n)

/-- `dht_sensor_read`: the outcome, and the reads made. -/
def dhtSensorRead (w : Nat → Bool) (fuel sensorType : Nat) (temperature humidity : ℚ) :
    Option (SensorRead × Nat) :=
  let response := dhtWaitResponse w
  if ¬ response.1 then some (⟨-RT_ERROR, temperature, humidity⟩, response.2)
  else do
    let (data, n) ← dhtReadData w fuel response.2
    if ¬ data.ChecksumOk then return (⟨-RT_ERROR, temperature, humidity⟩, n)
    if sensorType = DHT11 then return (⟨RT_EOK, data.b2.toNat, data.b0.toNat⟩, n)
    return (⟨RT_EOK, temperature, humidity⟩, n)

/-- The call returns, and has then made some number of reads. -/
def Returns (w : Nat → Bool) (sensorType : Nat) (temperature humidity : ℚ) : Prop :=
  ∃ fuel out reads, dhtSensorRead w fuel sensorType temperature humidity = some (out, reads)

/-! ## The handshake -/

variable {w : Nat → Bool} {sensorType : Nat} {temperature humidity : ℚ} {p : Nat}

/-- A low among the first 100 reads, and a high among the next 100, the last one before `p`. -/
def Answers (w : Nat → Bool) (p : Nat) : Prop :=
  ∃ i j, First w false 0 i ∧ i < 100 ∧ First w true (i + 1) j ∧ j < i + 1 + 100 ∧ p = j + 1

/-- Both loops end in time. -/
theorem dhtWaitResponse_true_iff (w : Nat → Bool) (p : Nat) :
    dhtWaitResponse w = (true, p) ↔
      ∃ n, poll w false 100 0 = (true, n) ∧ poll w true 100 n = (true, p) := by
  unfold dhtWaitResponse
  rcases poll w false 100 0 with ⟨ok, n⟩
  cases ok <;> simp

theorem dhtWaitResponse_iff (w : Nat → Bool) (p : Nat) :
    dhtWaitResponse w = (true, p) ↔ Answers w p := by
  rw [dhtWaitResponse_true_iff]
  constructor
  · rintro ⟨n, hlow, hhigh⟩
    obtain ⟨i, hi, hilt, rfl⟩ := poll_eq_true_iff.mp hlow
    obtain ⟨j, hj, hjlt, hp⟩ := poll_eq_true_iff.mp hhigh
    exact ⟨i, j, hi, by omega, hj, hjlt, hp⟩
  · rintro ⟨i, j, hi, hilt, hj, hjlt, hp⟩
    exact ⟨i + 1, poll_eq_true_iff.mpr ⟨i, hi, by omega, rfl⟩,
      poll_eq_true_iff.mpr ⟨j, hj, hjlt, hp⟩⟩

theorem dhtWaitResponse_false_iff (w : Nat → Bool) :
    (dhtWaitResponse w).1 = false ↔ ∀ p, ¬ Answers w p := by
  constructor
  · intro h p hp
    rw [(dhtWaitResponse_iff w p).mpr hp] at h
    cases h
  · intro h
    by_contra hok
    exact h _ ((dhtWaitResponse_iff w (dhtWaitResponse w).2).mp
      (Prod.ext (Bool.eq_true_of_not_eq_false hok) rfl))

/-! ## The data -/

/-- **A bit reads up to the next fall**: low samples, and high ones until the line is low again. -/
theorem takes_bit (w : Nat → Bool) (data : Byte) (i : Nat) :
    Takes w 1 fun fuel n => dhtReadBit w fuel (data, n) i where
  sound {fuel n data' j} h := by
    obtain ⟨m, hm, hrest⟩ := Option.bind_eq_some_iff.mp h
    obtain ⟨a, ha, -, rfl⟩ := await_eq_some_iff.mp hm
    split at hrest
    · rename_i hone
      obtain ⟨m', hm', hret⟩ := Option.bind_eq_some_iff.mp hrest
      obtain ⟨c, hc, -, rfl⟩ := await_eq_some_iff.mp hm'
      obtain ⟨-, rfl⟩ := Prod.mk.inj (Option.some.inj hret)
      have hac := hc.le
      refine ⟨c - 1, firstFall_iff.mpr ⟨a, ha, by omega, fun l hal hlc => ?_, ?_⟩, ?_⟩
      · rcases Nat.lt_or_ge l (a + 2) with hl | hl
        · obtain rfl | rfl : l = a ∨ l = a + 1 := by omega
          · exact ha.hit
          · exact hone
        · exact Bool.eq_true_of_not_eq_false (hc.before l hl (by omega))
      · rw [show c - 1 + 1 = c by omega]
        exact hc.hit
      · show c + 1 = c - 1 + 2
        omega
    · rename_i hzero
      obtain ⟨-, rfl⟩ := Prod.mk.inj (Option.some.inj hrest)
      refine ⟨a, firstFall_iff.mpr ⟨a, ha, le_refl a, fun l hal hla => ?_, ?_⟩, rfl⟩
      · rw [Nat.le_antisymm hla hal]
        exact ha.hit
      · exact Bool.eq_false_iff.mpr hzero
  complete {fuel n j} h hj := by
    obtain ⟨k, hk, rfl⟩ := h
    obtain ⟨a, ha, hak, hhigh, hlow⟩ := firstFall_iff.mp hk
    have hle := ha.le
    have hrise : await w true fuel n = some (a + 1) :=
      await_eq_some_iff.mpr ⟨a, ha, by omega, rfl⟩
    rcases Nat.eq_or_lt_of_le hak with rfl | hlt
    · refine ⟨data, ?_⟩
      simp [dhtReadBit, hrise, hlow]
    · have hone : w (a + 1) = true := hhigh (a + 1) (Nat.le_succ a) hlt
      have hfall : await w false fuel (a + 2) = some (k + 2) := by
        refine await_eq_some_iff.mpr ⟨k + 1, ⟨by omega, hlow, fun l hl hlk => ?_⟩, by omega, rfl⟩
        rw [hhigh l (by omega) (by omega)]
        simp
      refine ⟨data ||| 1#8 <<< (7 - i), ?_⟩
      simp [dhtReadBit, hrise, hone, hfall]

theorem takes_bits (w : Nat → Bool) (data : Byte) (places : List Nat) :
    Takes w places.length fun fuel n => places.foldlM (dhtReadBit w fuel) (data, n) := by
  induction places generalizing data with
  | nil => exact Takes.pure data
  | cons i places ih =>
    have h := (takes_bit w data i).bind ih
    rw [List.length_cons, Nat.add_comm]
    exact h

/-- **A byte.** -/
theorem takes_byte (w : Nat → Bool) : Takes w 8 (dhtReadByte w) :=
  takes_bits w 0#8 (List.range 8)

/-- **Five bytes.** -/
theorem takes_data (w : Nat → Bool) : Takes w 40 (dhtReadData w) :=
  (takes_byte w).bind fun b0 => (takes_byte w).bind fun b1 => (takes_byte w).bind fun b2 =>
    (takes_byte w).bind fun b3 => (takes_byte w).bind fun b4 => Takes.pure (Frame.mk b0 b1 b2 b3 b4)

/-! ## The whole read -/

/-- Once the data are there, the call returns with the reads they took. -/
theorem dhtSensorRead_answered {fuel : Nat} (h : dhtWaitResponse w = (true, p)) :
    (∃ out reads, dhtSensorRead w fuel sensorType temperature humidity = some (out, reads)) ↔
      ∃ data reads, dhtReadData w fuel p = some (data, reads) := by
  unfold dhtSensorRead
  rw [h]
  constructor
  · rintro ⟨out, reads, hread⟩
    obtain ⟨⟨data, n⟩, hdata, -⟩ := Option.bind_eq_some_iff.mp hread
    exact ⟨data, n, hdata⟩
  · rintro ⟨data, n, hdata⟩
    dsimp only
    rw [if_neg (by simp), hdata]
    by_cases hsum : data.ChecksumOk
    · by_cases htype : sensorType = DHT11
      · exact ⟨⟨RT_EOK, data.b2.toNat, data.b0.toNat⟩, n, by simp [hsum, htype]⟩
      · exact ⟨⟨RT_EOK, temperature, humidity⟩, n, by simp [hsum, htype]⟩
    · exact ⟨⟨-RT_ERROR, temperature, humidity⟩, n, by simp [hsum]⟩

/-- **Reading ends exactly when no handshake succeeds, or the line falls forty times after it.** -/
theorem sensor_read_returns_iff (w : Nat → Bool) (sensorType : Nat) (temperature humidity : ℚ) :
    Returns w sensorType temperature humidity ↔ ∀ p, Answers w p → Falls w 40 p := by
  unfold Returns
  by_cases hok : ∃ p, Answers w p
  · obtain ⟨p, hp⟩ := hok
    have hwait := (dhtWaitResponse_iff w p).mpr hp
    have hall : (∀ q, Answers w q → Falls w 40 q) ↔ Falls w 40 p := by
      refine ⟨fun h => h p hp, fun h q hq => ?_⟩
      have hsame := hwait.symm.trans ((dhtWaitResponse_iff w q).mpr hq)
      rwa [← (Prod.mk.inj hsame).2]
    rw [hall, ← (takes_data w).returns_iff]
    exact exists_congr fun fuel => dhtSensorRead_answered hwait
  · have hno : ∀ p, ¬ Answers w p := fun p hp => hok ⟨p, hp⟩
    refine iff_of_true ⟨0, ⟨-RT_ERROR, temperature, humidity⟩, (dhtWaitResponse w).2, ?_⟩
      fun p hp => absurd hp (hno p)
    exact if_pos (by simp [(dhtWaitResponse_false_iff w).mpr hno])

/-- A line that stays high once the sensor has answered. -/
def stuck (n : Nat) : Bool := decide (n ≠ 0)

theorem sensor_read_stuck : ¬ Returns stuck DHT11 20 50 := by
  rintro ⟨fuel, out, reads, hread⟩
  have hwait : dhtWaitResponse stuck = (true, 2) := rfl
  obtain ⟨data, n, hdata⟩ := (dhtSensorRead_answered hwait).mp ⟨out, reads, hread⟩
  obtain ⟨k, hk, -⟩ := (takes_data stuck).sound hdata
  have hlow : k + 1 = 0 := by simpa [stuck] using hk.fall.2
  omega

end OSCompas.Sensor.Reads
