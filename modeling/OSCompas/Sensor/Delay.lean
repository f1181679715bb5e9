import Mathlib.Data.UInt
import OSCompas.Lib.Countdown

/-!
# Delays (`lab5-2-iot-sensor-rtos/src/sensor_dht.c`)

`dht_delay_us` samples `SysTick->VAL` and adds up how far it has gone down.

* `target`, `delayLoop`, `dhtDelayUs` — the code, with so many samples at most;
* `SysTick` — the timer and the times of the samples;
* `Stops` — the sample at which the loop ends, in terms of the sum.

The target is a 32-bit product and takes the reload value for the period; so does the correction
for a reload.

Principal results: `delayLoop_spec` and `delay_exact_iff`.
-/

set_option autoImplicit false

namespace OSCompas.Sensor.Delay

open Countdown

/-! ## The code -/

def RT_TICK_PER_SECOND : UInt32 := 1000

/-- `ticks`. -/
def target (us reload : UInt32) : UInt32 := us * reload / (1000000 / RT_TICK_PER_SECOND)

/-- The loop from the sample `k` on: the sample at which it ends, and `tcnt` then. -/
def delayLoop (val : Nat → UInt32) (reload ticks : UInt32) :
    Nat → Nat → UInt32 → UInt32 → Option (Nat × UInt32)
  | 0, _, _, _ => none
  | fuel + 1, k, told, tcnt =>
    let tnow := val k
    if tnow ≠ told then
      let tcnt := if tnow < told then tcnt + (told - tnow) else tcnt + (reload - tnow + told)
      if tcnt ≥ ticks then some (k, tcnt) else delayLoop val reload ticks fuel (k + 1) tnow tcnt
    else delayLoop val reload ticks fuel (k + 1) told tcnt

/-- `dht_delay_us`; the sample 0 is `told`. -/
def dhtDelayUs (val : Nat → UInt32) (reload us : UInt32) (fuel : Nat) : Option (Nat × UInt32) :=
  delayLoop val reload (target us reload) fuel 1 (val 0) 0

/-- The timer: its registers have 24 bits. -/
structure SysTick extends Sampling where
  load_lt : load < 2 ^ 24

namespace SysTick

/-- `SysTick->LOAD`. -/
def reload (s : SysTick) : UInt32 := UInt32.ofNat s.load

/-- `SysTick->VAL` at the sample `k`. -/
def valAt (s : SysTick) (k : Nat) : UInt32 := UInt32.ofNat (s.sample k)

end SysTick

/-! ## Numbers -/

variable {s : SysTick} {fuel k n m i : Nat} {us ticks tcnt told tnow out : UInt32}

theorem reload_toNat (s : SysTick) : s.reload.toNat = s.load := by
  have h := s.load_lt
  rw [SysTick.reload, UInt32.toNat_ofNat', Nat.mod_eq_of_lt (by omega)]

theorem valAt_toNat (s : SysTick) (k : Nat) : (s.valAt k).toNat = s.sample k := by
  have h := s.load_lt
  have hle := s.sample_le k
  rw [SysTick.valAt, UInt32.toNat_ofNat', Nat.mod_eq_of_lt (by omega)]

theorem valAt_le (s : SysTick) (k : Nat) : (s.valAt k).toNat ≤ s.load := by
  rw [valAt_toNat]
  exact s.sample_le k

theorem valAt_eq_iff (s : SysTick) (i k : Nat) :
    s.valAt i = s.valAt k ↔ s.sample i = s.sample k := by
  rw [← UInt32.toNat_inj, valAt_toNat, valAt_toNat]

theorem target_toNat (us : UInt32) (s : SysTick) :
    (target us s.reload).toNat = us.toNat * s.load % 2 ^ 32 / 1000 := by
  rw [target, UInt32.toNat_div, UInt32.toNat_mul, reload_toNat]
  rfl

theorem target_lt (us : UInt32) (s : SysTick) : (target us s.reload).toNat < 2 ^ 23 := by
  rw [target_toNat]
  omega

/-- One addition, which does not overflow. -/
theorem add_toNat (hcnt : tcnt.toNat < 2 ^ 24) (htold : told.toNat ≤ s.load)
    (htnow : tnow.toNat ≤ s.load) (hne : tnow ≠ told) :
    (if tnow < told then tcnt + (told - tnow) else tcnt + (s.reload - tnow + told)).toNat =
      tcnt.toNat + counted s.load told.toNat tnow.toNat := by
  have hload := s.load_lt
  have hne' : tnow.toNat ≠ told.toNat := fun h => hne (UInt32.toNat_inj.mp h)
  rw [counted, if_neg hne']
  simp only [UInt32.lt_iff_toNat_lt]
  split
  · rw [UInt32.toNat_add, UInt32.toNat_sub]
    omega
  · rw [UInt32.toNat_add, UInt32.toNat_add, UInt32.toNat_sub, reload_toNat]
    omega

/-! ## The loop -/

/-- The loop ends with the sample `m + 1`: it differs from the one before, the sum has reached the
target, and at no earlier change had it. -/
structure Stops (c : Sampling) (goal m : Nat) : Prop where
  changed : c.sample (m + 1) ≠ c.sample m
  reached : goal ≤ c.total (m + 1)
  before : ∀ i < m, c.sample (i + 1) ≠ c.sample i → c.total (i + 1) < goal

/-- **Where the loop ends, and with which sum.** -/
theorem delayLoop_spec (hgoal : ticks.toNat < 2 ^ 23) (hcnt : tcnt.toNat = s.total k)
    (hle : s.total k ≤ ticks.toNat)
    (hbefore : ∀ i < k, s.sample (i + 1) ≠ s.sample i → s.total (i + 1) < ticks.toNat)
    (h : delayLoop s.valAt s.reload ticks fuel (k + 1) (s.valAt k) tcnt = some (n, out)) :
    ∃ m, n = m + 1 ∧ Stops s.toSampling ticks.toNat m ∧ out.toNat = s.total (m + 1) := by
  induction fuel generalizing k tcnt with
  | zero => cases h
  | succ fuel ih =>
    rw [delayLoop] at h
    dsimp only at h
    split at h
    · rename_i hne
      have hchanged : s.sample (k + 1) ≠ s.sample k := mt (valAt_eq_iff s _ _).mpr hne
      have hsmall : tcnt.toNat < 2 ^ 24 := by omega
      have hadd := add_toNat hsmall (valAt_le s k) (valAt_le s (k + 1)) hne
      rw [valAt_toNat, valAt_toNat, hcnt] at hadd
      have hsum : _ = s.total (k + 1) := hadd
      generalize (if s.valAt (k + 1) < s.valAt k then tcnt + (s.valAt k - s.valAt (k + 1))
        else tcnt + (s.reload - s.valAt (k + 1) + s.valAt k)) = added at h hsum
      split at h
      · rename_i hreached
        obtain ⟨rfl, rfl⟩ := Prod.mk.inj (Option.some.inj h)
        refine ⟨k, rfl, ⟨hchanged, ?_, hbefore⟩, hsum⟩
        rw [← hsum]
        exact UInt32.le_iff_toNat_le.mp hreached
      · rename_i hshort
        have hless : s.total (k + 1) < ticks.toNat := by
          rw [← hsum]
          exact Nat.lt_of_not_le (mt UInt32.le_iff_toNat_le.mpr hshort)
        refine ih hsum hless.le (fun i hi hch => ?_) h
        rcases Nat.lt_succ_iff_lt_or_eq.mp hi with hlt | rfl
        · exact hbefore i hlt hch
        · exact hless
    · rename_i heq
      have hsame : s.sample (k + 1) = s.sample k := (valAt_eq_iff s _ _).mp (not_not.mp heq)
      have htotal : s.total (k + 1) = s.total k := by
        rw [Sampling.total, hsame, counted, if_pos rfl, Nat.add_zero]
      rw [← not_not.mp heq] at h
      refine ih (hcnt.trans htotal.symm) (htotal.trans_le hle) (fun i hi hch => ?_) h
      rcases Nat.lt_succ_iff_lt_or_eq.mp hi with hlt | rfl
      · exact hbefore i hlt hch
      · exact absurd hsame hch

theorem dhtDelayUs_spec (h : dhtDelayUs s.valAt s.reload us fuel = some (k, tcnt)) :
    ∃ m, k = m + 1 ∧ Stops s.toSampling (target us s.reload).toNat m ∧
      tcnt.toNat = s.total (m + 1) :=
  delayLoop_spec (target_lt us s) rfl (Nat.zero_le _) (fun _ hi => absurd hi (Nat.not_lt_zero _)) h

/-- A sample before the first reload comes with the change that led to its value. -/
theorem exists_change {c : Sampling} (hpos : 1 ≤ c.elapsed i) (hle : c.elapsed i ≤ c.val) :
    ∃ j, j < i ∧ c.sample (j + 1) ≠ c.sample j ∧ c.elapsed (j + 1) = c.elapsed i := by
  induction i with
  | zero =>
    rw [c.elapsed_zero] at hpos
    exact absurd hpos (Nat.not_succ_le_zero 0)
  | succ i ih =>
    have hmono := c.elapsed_mono i
    rcases Nat.eq_or_lt_of_le hmono with heq | hlt
    · obtain ⟨j, hj, hch, hel⟩ := ih (heq ▸ hpos) (heq ▸ hle)
      exact ⟨j, Nat.lt_succ_of_lt hj, hch, hel.trans heq⟩
    · refine ⟨i, Nat.lt_succ_self i, ?_, rfl⟩
      rw [Sampling.sample_eq hle, Sampling.sample_eq (hmono.trans hle)]
      omega

namespace Stops

variable {c : Sampling} {goal : Nat}

theorem pos (h : Stops c goal m) : 1 ≤ c.elapsed (m + 1) := by
  have hne : c.elapsed m ≠ c.elapsed (m + 1) := fun heq =>
    h.changed (congrArg (value c.load c.val) heq.symm)
  have hmono := c.elapsed_mono m
  omega

/-- The loop has ended by the time a sample before the first reload reaches the target. -/
theorem elapsed_le (h : Stops c goal m) (hpos : 1 ≤ c.elapsed i) (hval : c.elapsed i ≤ c.val)
    (hgoal : goal ≤ c.elapsed i) : c.elapsed (m + 1) ≤ c.elapsed i := by
  obtain ⟨j, -, hch, hel⟩ := exists_change hpos hval
  have hmj : m ≤ j := by
    by_contra hlt
    have hless := h.before j (Nat.lt_of_not_le hlt) hch
    rw [Sampling.total_eq (by omega), hel] at hless
    omega
  rw [← hel]
  exact c.elapsed_le (Nat.succ_le_succ hmj)

end Stops

/-! ## Delays that are long enough -/

/-- As many counts have passed as were asked for, and they have been counted. -/
def Exact (s : SysTick) (us : UInt32) (k : Nat) (tcnt : UInt32) : Prop :=
  us.toNat * (s.load + 1) ≤ 1000 * s.elapsed k ∧ tcnt.toNat = s.elapsed k

/-- The target of the code is never too large. -/
theorem target_le {d : Nat} (h : us.toNat * (s.load + 1) ≤ 1000 * d) :
    us.toNat * s.load % 2 ^ 32 / 1000 ≤ d := by
  have hmod : us.toNat * s.load % 2 ^ 32 ≤ us.toNat * s.load := Nat.mod_le _ _
  have hmul : us.toNat * s.load ≤ us.toNat * (s.load + 1) :=
    Nat.mul_le_mul_left _ (Nat.le_succ _)
  omega

/-- **A delay that ends is exact when there is a sample between its time and the first reload, and
none between the target of the code and its time.** -/
theorem delay_exact_iff (h : dhtDelayUs s.valAt s.reload us fuel = some (k, tcnt)) :
    Exact s us k tcnt ↔
      (∃ i, 1 ≤ s.elapsed i ∧ us.toNat * (s.load + 1) ≤ 1000 * s.elapsed i ∧
        s.elapsed i ≤ s.val) ∧
      ∀ i, 1 ≤ s.elapsed i → us.toNat * s.load % 2 ^ 32 / 1000 ≤ s.elapsed i →
        us.toNat * (s.load + 1) ≤ 1000 * s.elapsed i := by
  obtain ⟨m, rfl, hstops, hout⟩ := dhtDelayUs_spec h
  rw [target_toNat] at hstops
  unfold Exact
  rw [hout, Sampling.total_eq_iff]
  constructor
  · rintro ⟨hlong, hval⟩
    refine ⟨⟨m + 1, hstops.pos, hlong, hval⟩, fun i hi hgoal => hlong.trans ?_⟩
    apply Nat.mul_le_mul_left
    rcases Nat.le_total (s.elapsed i) s.val with hi' | hi'
    · exact hstops.elapsed_le hi hi' hgoal
    · exact hval.trans hi'
  · rintro ⟨⟨i, hi, hlong, hval⟩, hall⟩
    have hend : s.elapsed (m + 1) ≤ s.val :=
      (hstops.elapsed_le hi hval (target_le hlong)).trans hval
    have hreached := hstops.reached
    rw [Sampling.total_eq hend] at hreached
    exact ⟨hall _ hstops.pos hreached, hend⟩

/-- A period of 1001 counts, and a sample every `step` counts. -/
def every (val step : Nat) (hv : val ≤ 1000) (hs : step ≤ 1001) : SysTick where
  load := 1000
  val := val
  elapsed k := step * k
  val_le := hv
  elapsed_zero := Nat.mul_zero _
  elapsed_mono k := Nat.mul_le_mul_left _ (Nat.le_succ k)
  elapsed_close k := by
    rw [Nat.mul_succ]
    omega
  load_lt := by decide

/-- 1 µs is 1.001 counts, and the first sample comes after 2. -/
theorem delay_exact_two : Exact (every 1000 2 (by decide) (by decide)) 1 1 2 := by
  have hends : dhtDelayUs (every 1000 2 (by decide) (by decide)).valAt
      (every 1000 2 (by decide) (by decide)).reload 1 1 = some (1, 2) := rfl
  refine (delay_exact_iff hends).mpr ⟨⟨1, by decide, by decide, by decide⟩, fun i hi _ => ?_⟩
  have hi' : 1 ≤ 2 * i := hi
  show 1 * 1001 ≤ 1000 * (2 * i)
  omega

/-- The loop ends after 1 count, which is too early; and after 2 counts with a reload between them,
of which it has counted 1. -/
theorem delay_inexact :
    (dhtDelayUs (every 1000 1 (by decide) (by decide)).valAt 1000 1 1 = some (1, 1) ∧
      ¬ Exact (every 1000 1 (by decide) (by decide)) 1 1 1) ∧
    (dhtDelayUs (every 0 2 (by decide) (by decide)).valAt 1000 1 1 = some (1, 1) ∧
      ¬ Exact (every 0 2 (by decide) (by decide)) 1 1 1) := by
  refine ⟨⟨rfl, fun h => ?_⟩, ⟨rfl, fun h => ?_⟩⟩
  · exact absurd h.1 (by decide)
  · exact absurd h.2 (by decide)

end OSCompas.Sensor.Delay
