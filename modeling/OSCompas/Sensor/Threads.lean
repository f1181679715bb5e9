import OSCompas.Lib.Runs
import Mathlib.Data.Rat.Defs
import Mathlib.Tactic.Common

/-!
# The sensor and the MQTT thread (`lab5-2-iot-sensor-rtos/src/main.c`)

Two threads that share `current_data`, without a lock, and `data_ready_sem`.

* `SensorPc`, `MqttPc` — where `sensor_thread_entry` and `mqtt_thread_entry` are;
* `step` — one assignment to the record, one read of a field, or one operation on the semaphore;
* `InOrder` — the `i`-th payload is the `i`-th good reading;
* `Calm` — the sensor thread leaves the record alone while a reading is still to be copied.

A reading takes three assignments, the semaphore counts readings and the record holds one.

Principal results: `step_inv` and `published_in_order`.
-/

set_option autoImplicit false

namespace OSCompas.Sensor

open Runs

/-! ## The threads -/

/-- `struct sensor_data`. -/
@[ext] structure SensorData where
  temperature : ℚ
  humidity : ℚ
  timestamp : Nat
  deriving DecidableEq, Repr

/-- Temperature and humidity, as the sensor sent them. -/
structure Measured where
  temperature : ℚ
  humidity : ℚ
  deriving DecidableEq, Repr

/-- The next step of `sensor_thread_entry`. -/
inductive SensorPc
  /-- `dht_sensor_read` gets a frame. -/
  | read
  /-- `*humidity = data[0]`. -/
  | setHumidity (m : Measured)
  /-- `*temperature = data[2]`. -/
  | setTemperature (m : Measured)
  /-- `current_data.timestamp = rt_tick_get()`, after a good or a failed read. -/
  | stamp (result : Option Measured)
  /-- `rt_sem_release(data_ready_sem)`. -/
  | release
  /-- `rt_thread_delay`. -/
  | delay
  deriving DecidableEq

/-- The arguments of `rt_snprintf` read so far. -/
structure Copy where
  temperature : Option ℚ
  humidity : Option ℚ
  timestamp : Option Nat
  deriving DecidableEq

/-- The next step of `mqtt_thread_entry`. -/
inductive MqttPc
  /-- Waiting for the WiFi, and `mqtt_client_init`. -/
  | connect
  /-- `rt_sem_take(data_ready_sem, RT_WAITING_FOREVER)`. -/
  | take
  /-- The arguments of `rt_snprintf`, whose order C leaves open. -/
  | copy (c : Copy)
  /-- `mqtt_publish_data`. -/
  | publish (payload : SensorData)
  /-- `mqtt_client_init` failed. -/
  | stopped
  deriving DecidableEq

/-- The two threads, the record and the semaphore; besides, the good readings and the payloads given
to `mqtt_publish_data`, in order.  The thread does not look at what that returns: a payload that
could not be sent is among them. -/
structure Threads where
  sensor : SensorPc
  mqtt : MqttPc
  currentData : SensorData
  dataReadySem : Nat
  good : List SensorData
  published : List SensorData
  deriving DecidableEq

/-- What a thread may do next; the outcome of a read, the tick and the outcome of the connection
come from outside. -/
inductive Act
  | read (result : Option Measured)
  | setHumidity
  | setTemperature
  | stamp (tick : Nat)
  | release
  | delay
  | connect (ok : Bool)
  | take
  | copyTemperature
  | copyHumidity
  | copyTimestamp
  | construct
  | publish
  deriving DecidableEq

/-- One step of one thread, if it can take it. -/
def step (s : Threads) : Act → Option Threads
  | .read result =>
    match s.sensor, result with
    | .read, some m => some { s with sensor := .setHumidity m }
    | .read, none => some { s with sensor := .stamp none }
    | _, _ => none
  | .setHumidity =>
    match s.sensor with
    | .setHumidity m =>
      some { s with
        sensor := .setTemperature m
        currentData := { s.currentData with humidity := m.humidity } }
    | _ => none
  | .setTemperature =>
    match s.sensor with
    | .setTemperature m =>
      some { s with
        sensor := .stamp (some m)
        currentData := { s.currentData with temperature := m.temperature } }
    | _ => none
  | .stamp tick =>
    match s.sensor with
    | .stamp (some m) =>
      some { s with
        sensor := .release
        currentData := { s.currentData with timestamp := tick }
        good := s.good ++ [⟨m.temperature, m.humidity, tick⟩] }
    | .stamp none =>
      some { s with sensor := .delay, currentData := { s.currentData with timestamp := tick } }
    | _ => none
  | .release =>
    match s.sensor with
    | .release => some { s with sensor := .delay, dataReadySem := s.dataReadySem + 1 }
    | _ => none
  | .delay =>
    match s.sensor with
    | .delay => some { s with sensor := .read }
    | _ => none
  | .connect ok =>
    match s.mqtt with
    | .connect => some { s with mqtt := if ok then .take else .stopped }
    | _ => none
  | .take =>
    match s.mqtt, s.dataReadySem with
    | .take, n + 1 => some { s with mqtt := .copy ⟨none, none, none⟩, dataReadySem := n }
    | _, _ => none
  | .copyTemperature =>
    match s.mqtt with
    | .copy ⟨none, h, time⟩ => some { s with mqtt := .copy ⟨s.currentData.temperature, h, time⟩ }
    | _ => none
  | .copyHumidity =>
    match s.mqtt with
    | .copy ⟨t, none, time⟩ => some { s with mqtt := .copy ⟨t, s.currentData.humidity, time⟩ }
    | _ => none
  | .copyTimestamp =>
    match s.mqtt with
    | .copy ⟨t, h, none⟩ => some { s with mqtt := .copy ⟨t, h, s.currentData.timestamp⟩ }
    | _ => none
  | .construct =>
    match s.mqtt with
    | .copy ⟨some t, some h, some time⟩ => some { s with mqtt := .publish ⟨t, h, time⟩ }
    | _ => none
  | .publish =>
    match s.mqtt with
    | .publish payload => some { s with mqtt := .take, published := s.published ++ [payload] }
    | _ => none

def Step (s : Threads) (a : Act) (s' : Threads) : Prop := step s a = some s'

/-- `main` started the threads; the record is what it was. -/
def Threads.start (data : SensorData) : Threads := ⟨.read, .connect, data, 0, [], []⟩

/-! ## The property and the condition -/

/-- The `i`-th payload is the `i`-th good reading: none is published twice, none is skipped, and
each is published as a whole. -/
def InOrder (s : Threads) : Prop := s.published <+: s.good

/-- A reading is being copied. -/
def MqttPc.copying : MqttPc → Nat
  | .copy _ => 1
  | _ => 0

/-- The readings released and not yet copied as a whole. -/
def Threads.toCopy (s : Threads) : Nat := s.dataReadySem + s.mqtt.copying

/-- The step assigns to the record. -/
def Act.assigns : Act → Bool
  | .setHumidity | .setTemperature | .stamp _ => true
  | _ => false

/-- The sensor thread assigns to the record only when nothing is to be copied. -/
def Calm (s : Threads) (a : Act) : Prop := a.assigns = true → s.toCopy = 0

instance (s : Threads) (a : Act) : Decidable (Calm s a) :=
  inferInstanceAs (Decidable (_ → _))

/-! ## The invariant -/

variable {s s' : Threads} {a : Act} {data : SensorData}

/-- A reading is in the record and not released yet. -/
def SensorPc.releasing : SensorPc → Nat
  | .release => 1
  | _ => 0

/-- What has been stored of the reading under way is in the record. -/
def SensorPc.Stored (data : SensorData) : SensorPc → Prop
  | .setTemperature m => data.humidity = m.humidity
  | .stamp (some m) => data.humidity = m.humidity ∧ data.temperature = m.temperature
  | _ => True

/-- What has been copied is in the record. -/
def MqttPc.Copied (data : SensorData) : MqttPc → Prop
  | .copy c => (∀ t, c.temperature = some t → t = data.temperature) ∧
      (∀ h, c.humidity = some h → h = data.humidity) ∧
      ∀ time, c.timestamp = some time → time = data.timestamp
  | _ => True

/-- The payload that is being published. -/
def MqttPc.payload : MqttPc → List SensorData
  | .publish payload => [payload]
  | _ => []

/-- The readings in the record that have to be copied before the next one. -/
def Threads.owed (s : Threads) : Nat := s.toCopy + s.sensor.releasing

/-- At most one reading is owed; it is in the record, and it is the only one behind the payloads. -/
structure Inv (s : Threads) : Prop where
  owed_le : s.owed ≤ 1
  good_eq : s.good = s.published ++ s.mqtt.payload ++ if s.owed = 0 then [] else [s.currentData]
  stored : s.sensor.Stored s.currentData
  copied : s.mqtt.Copied s.currentData

theorem start_inv : Inv (Threads.start data) := ⟨Nat.zero_le _, rfl, trivial, trivial⟩

/-- What is copied stays so while the record is. -/
theorem copied_of_not_copying {mqtt : MqttPc} (h : mqtt.copying = 0) : mqtt.Copied data := by
  cases mqtt with
  | copy c => cases h
  | connect => trivial
  | take => trivial
  | publish payload => trivial
  | stopped => trivial

/-- **A calm step keeps the invariant.** -/
theorem step_inv (h : Inv s) (hc : Calm s a) (hs : Step s a s') : Inv s' := by
  obtain ⟨sensor, mqtt, data, sem, good, published⟩ := s
  obtain ⟨howed, hgood, hstored, hcopied⟩ := h
  simp only [Threads.owed, Threads.toCopy] at howed hgood hstored hcopied
  cases a with
  | read result =>
    simp only [Step, step] at hs
    split at hs
    · cases hs
      exact ⟨howed, hgood, trivial, hcopied⟩
    · cases hs
      exact ⟨howed, hgood, trivial, hcopied⟩
    · cases hs
  | setHumidity =>
    simp only [Step, step] at hs
    split at hs
    · cases hs
      have hcalm : sem + mqtt.copying = 0 := hc rfl
      have hquiet : mqtt.copying = 0 := by omega
      simp only [hcalm, SensorPc.releasing] at hgood
      exact ⟨howed, by simpa [Threads.owed, Threads.toCopy, hcalm, SensorPc.releasing] using hgood,
        rfl, copied_of_not_copying hquiet⟩
    · cases hs
  | setTemperature =>
    simp only [Step, step] at hs
    split at hs
    · cases hs
      have hcalm : sem + mqtt.copying = 0 := hc rfl
      have hquiet : mqtt.copying = 0 := by omega
      simp only [hcalm, SensorPc.releasing] at hgood
      exact ⟨howed, by simpa [Threads.owed, Threads.toCopy, hcalm, SensorPc.releasing] using hgood,
        ⟨hstored, rfl⟩, copied_of_not_copying hquiet⟩
    · cases hs
  | stamp tick =>
    simp only [Step, step] at hs
    have hcalm : sem + mqtt.copying = 0 := hc rfl
    have hquiet : mqtt.copying = 0 := by omega
    split at hs
    · -- a good reading is complete, and in the record
      cases hs
      obtain ⟨hhum, htemp⟩ := hstored
      simp only [hcalm, SensorPc.releasing] at hgood
      refine ⟨?_, ?_, trivial, copied_of_not_copying hquiet⟩
      · simp [Threads.owed, Threads.toCopy, hcalm, SensorPc.releasing]
      · simp [Threads.owed, Threads.toCopy, hcalm, SensorPc.releasing, hgood, hhum, htemp]
    · cases hs
      simp only [hcalm, SensorPc.releasing] at hgood
      refine ⟨?_, ?_, trivial, copied_of_not_copying hquiet⟩
      · simp [Threads.owed, Threads.toCopy, hcalm, SensorPc.releasing]
      · simp [Threads.owed, Threads.toCopy, hcalm, SensorPc.releasing, hgood]
    · cases hs
  | release =>
    simp only [Step, step] at hs
    split at hs
    · cases hs
      have hsum : sem + 1 + mqtt.copying + 0 = sem + mqtt.copying + 1 := by omega
      refine ⟨?_, ?_, trivial, hcopied⟩
      · simpa [Threads.owed, Threads.toCopy, SensorPc.releasing, hsum] using howed
      · simpa [Threads.owed, Threads.toCopy, SensorPc.releasing, hsum] using hgood
    · cases hs
  | delay =>
    simp only [Step, step] at hs
    split at hs
    · cases hs
      exact ⟨howed, hgood, trivial, hcopied⟩
    · cases hs
  | connect ok =>
    simp only [Step, step] at hs
    split at hs
    · cases hs
      cases ok with
      | true => exact ⟨howed, hgood, hstored, trivial⟩
      | false => exact ⟨howed, hgood, hstored, trivial⟩
    · cases hs
  | take =>
    simp only [Step, step] at hs
    split at hs
    · cases hs
      exact ⟨howed, hgood, hstored, by simp [MqttPc.Copied]⟩
    · cases hs
  | copyTemperature =>
    simp only [Step, step] at hs
    split at hs
    · cases hs
      obtain ⟨-, hh, htime⟩ := hcopied
      exact ⟨howed, hgood, hstored, by simp, hh, htime⟩
    · cases hs
  | copyHumidity =>
    simp only [Step, step] at hs
    split at hs
    · cases hs
      obtain ⟨ht, -, htime⟩ := hcopied
      exact ⟨howed, hgood, hstored, ht, by simp, htime⟩
    · cases hs
  | copyTimestamp =>
    simp only [Step, step] at hs
    split at hs
    · cases hs
      obtain ⟨ht, hh, -⟩ := hcopied
      exact ⟨howed, hgood, hstored, ht, hh, by simp⟩
    · cases hs
  | construct =>
    simp only [Step, step] at hs
    split at hs
    · rename_i _ t h time
      cases hs
      -- the record was owed, and is in the payload now
      have hdata : SensorData.mk t h time = data :=
        SensorData.ext (hcopied.1 t rfl) (hcopied.2.1 h rfl) (hcopied.2.2 time rfl)
      simp only [MqttPc.copying] at howed hgood
      have hsem : sem = 0 := by omega
      have hrel : sensor.releasing = 0 := by omega
      refine ⟨?_, ?_, hstored, trivial⟩
      · simp [Threads.owed, Threads.toCopy, MqttPc.copying, hsem, hrel]
      · simpa [Threads.owed, Threads.toCopy, MqttPc.copying, MqttPc.payload, hsem, hrel, hdata]
          using hgood
    · cases hs
  | publish =>
    simp only [Step, step] at hs
    split at hs
    · cases hs
      refine ⟨howed, ?_, hstored, trivial⟩
      simpa [Threads.owed, Threads.toCopy, MqttPc.copying, MqttPc.payload] using hgood
    · cases hs

/-! ## Runs -/

/-- **In every run whose steps are calm the payloads are the good readings, in order.** -/
theorem published_in_order (hrun : Reaches Step Calm (Threads.start data) s) : InOrder s := by
  have h : Inv s := hrun.invariant start_inv fun _ _ _ hI hc hs => step_inv hI hc hs
  exact ⟨_, (List.append_assoc _ _ _).symm.trans h.good_eq.symm⟩

/-- A good reading, a failed one and another good one, each published before the next. -/
theorem published_in_order_run : ∃ s, s.published = [⟨23, 45, 1⟩, ⟨24, 44, 3⟩] ∧
    Reaches Step Calm (Threads.start ⟨0, 0, 0⟩) s ∧ InOrder s := by
  have hx : (exec step (fun s a => decide (Calm s a)) (Threads.start ⟨0, 0, 0⟩)
      [.connect true, .read (some ⟨23, 45⟩), .setHumidity, .setTemperature, .stamp 1, .release,
        .take, .copyTemperature, .copyHumidity, .copyTimestamp, .construct, .publish, .delay,
        .read none, .stamp 2, .delay, .read (some ⟨24, 44⟩), .setHumidity, .setTemperature,
        .stamp 3, .release, .take, .copyTimestamp, .copyHumidity, .copyTemperature, .construct,
        .publish]).map Threads.published = some [⟨23, 45, 1⟩, ⟨24, 44, 3⟩] := by
    decide +kernel
  obtain ⟨s, hs, hpub⟩ := Option.map_eq_some_iff.mp hx
  have hrun : Reaches Step Calm (Threads.start ⟨0, 0, 0⟩) s :=
    reaches_of_exec (fun _ _ h => of_decide_eq_true h) (fun _ _ _ h => h) hs
  exact ⟨s, hpub, hrun, published_in_order hrun⟩

/-- While the first reading is being published, two more are made: the second is never published,
and the third is published twice. -/
theorem published_out_of_order : ¬ ∀ data s,
    Reaches Step anyAction (Threads.start data) s → InOrder s := by
  intro hall
  have hx : (exec step (fun _ _ => true) (Threads.start ⟨0, 0, 0⟩)
      [.connect true, .read (some ⟨23, 45⟩), .setHumidity, .setTemperature, .stamp 1, .release,
        .take, .copyTemperature, .copyHumidity, .copyTimestamp, .construct, .delay,
        .read (some ⟨24, 44⟩), .setHumidity, .setTemperature, .stamp 2, .release, .delay,
        .read (some ⟨25, 43⟩), .setHumidity, .setTemperature, .stamp 3, .release, .publish,
        .take, .copyTemperature, .copyHumidity, .copyTimestamp, .construct, .publish,
        .take, .copyTemperature, .copyHumidity, .copyTimestamp, .construct, .publish]).map
      (fun s => (s.published, s.good)) =
      some ([⟨23, 45, 1⟩, ⟨25, 43, 3⟩, ⟨25, 43, 3⟩], [⟨23, 45, 1⟩, ⟨24, 44, 2⟩, ⟨25, 43, 3⟩]) := by
    decide +kernel
  obtain ⟨s, hs, hobs⟩ := Option.map_eq_some_iff.mp hx
  obtain ⟨hpub, hgood⟩ := Prod.mk.inj hobs
  have hrun : Reaches Step anyAction (Threads.start ⟨0, 0, 0⟩) s :=
    reaches_of_exec (fun _ _ _ => trivial) (fun _ _ _ h => h) hs
  have horder := hall _ s hrun
  rw [InOrder, hpub, hgood] at horder
  exact absurd horder (by decide)

end OSCompas.Sensor
