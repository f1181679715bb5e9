import Mathlib.Tactic.Ring

/-!
# The timer (`src/interrupt.c`)

`timer_sleep` adds `ms * timer_frequency / 1000` to the tick counter and halts while the counter is
below the sum.  The product, the sum and the counter have 32 bits.

* `Clock` — the counter, the frequency and what was sent to the ports;
* `timerInit`, `timerSetFrequency`, `timerHandler` — the code around it;
* `sleepLoop`, `timerSleep` — the loop, with one interrupt for each `hlt`;
* `SleepsFor` — a sleep returns after a number of interrupts.

Principal results: `timerSetFrequency_divisor`, `sleepsFor_iff` and `timer_sleep_iff`.
-/

set_option autoImplicit false

namespace OSCompas.Timer

/-! ## The code -/

def TIMER_FREQUENCY : UInt32 := 1000

def TIMER_IRQ : UInt8 := 0x20

def TIMER_CMD_PORT : UInt16 := 0x43

def TIMER_DATA_PORT : UInt16 := 0x40

/-- `timer_ticks`, `timer_frequency`, and the bytes sent to ports, the oldest first. -/
structure Clock where
  timerTicks : UInt32
  timerFrequency : UInt32
  outs : List (UInt16 × UInt8)
  deriving DecidableEq, Repr

/-- The static variables before `timer_init`. -/
def start : Clock := ⟨0, TIMER_FREQUENCY, []⟩

/-- `outb`. -/
def outb (port : UInt16) (v : UInt8) (t : Clock) : Clock := { t with outs := t.outs ++ [(port, v)] }

/-- The command byte and the two bytes of the divisor. -/
def sendDivisor (divisor : UInt32) (t : Clock) : Clock :=
  outb TIMER_DATA_PORT ((divisor >>> 8) &&& 0xff).toUInt8
    (outb TIMER_DATA_PORT (divisor &&& 0xff).toUInt8 (outb TIMER_CMD_PORT 0x36 t))

/-- `timer_init`; `none` is the division by 0. -/
def timerInit (frequency : UInt32) (t : Clock) : Option Clock :=
  if frequency = 0 then none
  else some (sendDivisor (1193180 / frequency) { t with timerFrequency := frequency })

/-- `timer_set_frequency`. -/
def timerSetFrequency (frequency : UInt32) (t : Clock) : Clock :=
  if frequency < 20 ∨ 10000 < frequency then t
  else sendDivisor (1193180 / frequency) { t with timerFrequency := frequency }

/-- `pic_send_eoi`. -/
def picSendEoi (irq : UInt8) (t : Clock) : Clock :=
  outb 0x20 0x20 (if 8 ≤ irq then outb 0xa0 0x20 t else t)

/-- `timer_handler`. -/
def timerHandler (t : Clock) : Clock :=
  picSendEoi TIMER_IRQ { t with timerTicks := t.timerTicks + 1 }

/-- The loop of `timer_sleep`, with the number of interrupts; `none` is out of fuel. -/
def sleepLoop (endTicks : UInt32) : Nat → Clock → Option (Nat × Clock)
  | 0, _ => none
  | fuel + 1, t =>
    if t.timerTicks < endTicks then
      -- `hlt` lasts to the next interrupt
      (sleepLoop endTicks fuel (timerHandler t)).map fun r => (r.1 + 1, r.2)
    else some (0, t)

/-- `timer_sleep`. -/
def timerSleep (ms : UInt32) (fuel : Nat) (t : Clock) : Option (Nat × Clock) :=
  sleepLoop (t.timerTicks + ms * t.timerFrequency / 1000) fuel t

/-! ## The property -/

/-- `timer_sleep` returns after `n` interrupts. -/
def SleepsFor (t : Clock) (ms : UInt32) (n : Nat) : Prop :=
  ∃ fuel t', timerSleep ms fuel t = some (n, t')

/-- The number of timer interrupts in `ms` milliseconds. -/
def interrupts (t : Clock) (ms : UInt32) : Nat := ms.toNat * t.timerFrequency.toNat / 1000

variable {t t' : Clock} {ms f endTicks divisor : UInt32} {n fuel : Nat}

/-! ## The frequency -/

/-- A divisor of two bytes is sent whole. -/
theorem bytes_of_divisor (h : divisor.toNat < 2 ^ 16) : (divisor &&& 0xff).toUInt8.toNat +
    256 * ((divisor >>> 8) &&& 0xff).toUInt8.toNat = divisor.toNat := by
  have hlow : (divisor &&& 0xff).toNat = divisor.toNat % 2 ^ 8 :=
    (UInt32.toNat_and _ _).trans (Nat.and_two_pow_sub_one_eq_mod _ 8)
  have hhigh : ((divisor >>> 8) &&& 0xff).toNat = (divisor >>> 8).toNat % 2 ^ 8 :=
    (UInt32.toNat_and _ _).trans (Nat.and_two_pow_sub_one_eq_mod _ 8)
  have hshift : (divisor >>> 8).toNat = divisor.toNat / 2 ^ 8 := by
    rw [UInt32.toNat_shiftRight]
    exact Nat.shiftRight_eq_div_pow _ _
  rw [UInt32.toNat_toUInt8, UInt32.toNat_toUInt8, hlow, hhigh, hshift]
  omega

theorem accepted_iff : ¬ (f < 20 ∨ 10000 < f) ↔ 20 ≤ f ∧ f ≤ 10000 := by
  rw [not_or, UInt32.not_lt, UInt32.not_lt]

/-- **A frequency that is accepted has a divisor of two bytes**, and these are the ones sent. -/
theorem timerSetFrequency_divisor (h : 20 ≤ f) (h' : f ≤ 10000) : ∃ low high : UInt8,
    timerSetFrequency f t = { t with
      timerFrequency := f
      outs := t.outs ++ [(TIMER_CMD_PORT, 0x36), (TIMER_DATA_PORT, low),
        (TIMER_DATA_PORT, high)] } ∧
    low.toNat + 256 * high.toNat = 1193180 / f.toNat := by
  have hlow : 20 ≤ f.toNat := h
  have hdiv : (1193180 / f).toNat = 1193180 / f.toNat := UInt32.toNat_div _ _
  have hsmall : 1193180 / f.toNat ≤ 1193180 / 20 := Nat.div_le_div_left hlow (by omega)
  refine ⟨_, _, ?_, (bytes_of_divisor (show (1193180 / f).toNat < 2 ^ 16 by omega)).trans hdiv⟩
  rw [timerSetFrequency, if_neg (accepted_iff.mpr ⟨h, h'⟩)]
  simp [sendDivisor, outb]

/-- `timer_init` does the same, without a check. -/
theorem timerInit_eq (h : 20 ≤ f) (h' : f ≤ 10000) :
    timerInit f t = some (timerSetFrequency f t) := by
  have hlow : 20 ≤ f.toNat := h
  have hpos : f ≠ 0 := by
    rintro rfl
    exact absurd hlow (by decide)
  rw [timerInit, if_neg hpos, timerSetFrequency,
    if_neg (accepted_iff.mpr ⟨h, h'⟩)]

/-- The frequency stays in its range. -/
theorem timerSetFrequency_range (h : 20 ≤ t.timerFrequency ∧ t.timerFrequency ≤ 10000)
    (f : UInt32) : 20 ≤ (timerSetFrequency f t).timerFrequency ∧
      (timerSetFrequency f t).timerFrequency ≤ 10000 := by
  rw [timerSetFrequency]
  split
  · exact h
  · rename_i hin
    exact accepted_iff.mp hin

/-! ## The loop -/

@[simp] theorem timerHandler_timerTicks (t : Clock) :
    (timerHandler t).timerTicks = t.timerTicks + 1 := rfl

/-- A tick before the end does not wrap. -/
theorem next_tick (h : t.timerTicks < endTicks) :
    (timerHandler t).timerTicks.toNat = t.timerTicks.toNat + 1 := by
  have hnat : t.timerTicks.toNat < endTicks.toNat := h
  have hend : endTicks.toNat < 2 ^ 32 := endTicks.toNat_lt
  rw [timerHandler_timerTicks, UInt32.toNat_add, UInt32.toNat_one]
  omega

/-- The loop ends, after as many interrupts as the end lies ahead. -/
theorem sleepLoop_eq (hf : endTicks.toNat - t.timerTicks.toNat < fuel) :
    ∃ t', sleepLoop endTicks fuel t = some (endTicks.toNat - t.timerTicks.toNat, t') := by
  induction fuel generalizing t with
  | zero => omega
  | succ fuel ih =>
    by_cases hlt : t.timerTicks < endTicks
    · have hnat : t.timerTicks.toNat < endTicks.toNat := hlt
      have hticks := next_tick hlt
      obtain ⟨t', ht'⟩ := ih (t := timerHandler t) (by omega)
      refine ⟨t', ?_⟩
      rw [sleepLoop, if_pos hlt, ht', Option.map_some, hticks]
      congr 2
      omega
    · have hnat : ¬ t.timerTicks.toNat < endTicks.toNat := hlt
      refine ⟨t, ?_⟩
      rw [sleepLoop, if_neg hlt, Nat.sub_eq_zero_of_le (by omega)]

/-- It does not end otherwise. -/
theorem sleepLoop_only (h : sleepLoop endTicks fuel t = some (n, t')) :
    n = endTicks.toNat - t.timerTicks.toNat := by
  induction fuel generalizing t n with
  | zero => cases h
  | succ fuel ih =>
    by_cases hlt : t.timerTicks < endTicks
    · rw [sleepLoop, if_pos hlt] at h
      obtain ⟨⟨k, t''⟩, hrest, he⟩ := Option.map_eq_some_iff.mp h
      obtain ⟨rfl, rfl⟩ := Prod.mk.inj he
      have hnat : t.timerTicks.toNat < endTicks.toNat := hlt
      have hticks := next_tick hlt
      have hk := ih hrest
      omega
    · rw [sleepLoop, if_neg hlt] at h
      obtain ⟨rfl, rfl⟩ := Prod.mk.inj (Option.some.inj h)
      have hnat : ¬ t.timerTicks.toNat < endTicks.toNat := hlt
      omega

/-- **How long `timer_sleep` sleeps.** -/
theorem sleepsFor_iff : SleepsFor t ms n ↔
    n = (t.timerTicks + ms * t.timerFrequency / 1000).toNat - t.timerTicks.toNat := by
  constructor
  · rintro ⟨fuel, t', h⟩
    exact sleepLoop_only h
  · rintro rfl
    obtain ⟨t', ht'⟩ := sleepLoop_eq (Nat.lt_succ_self _)
    exact ⟨_, t', ht'⟩

/-- **`timer_sleep` waits for the right number of interrupts** just if neither the product nor the
tick at which it ends wraps. -/
theorem timer_sleep_iff (t : Clock) (ms : UInt32) : SleepsFor t ms (interrupts t ms) ↔
    ms.toNat * t.timerFrequency.toNat < 2 ^ 32 ∧
    t.timerTicks.toNat + interrupts t ms < 2 ^ 32 := by
  have hticks : t.timerTicks.toNat < 2 ^ 32 := t.timerTicks.toNat_lt
  have hend : (t.timerTicks + ms * t.timerFrequency / 1000).toNat = (t.timerTicks.toNat +
      ms.toNat * t.timerFrequency.toNat % 2 ^ 32 / 1000) % 2 ^ 32 := by
    rw [UInt32.toNat_add, UInt32.toNat_div, UInt32.toNat_mul]
    rfl
  rw [sleepsFor_iff, hend, interrupts]
  generalize ms.toNat * t.timerFrequency.toNat = product
  omega

/-- At 1000 Hz a sleep of 4294968 ms returns at once. -/
theorem returns_at_once : ¬ ∀ (t : Clock) (ms : UInt32), 20 ≤ t.timerFrequency →
    t.timerFrequency ≤ 10000 → interrupts t ms < 2 ^ 32 → SleepsFor t ms (interrupts t ms) := by
  intro hall
  have h := hall start 4294968 (by decide) (by decide) (by decide)
  rw [sleepsFor_iff] at h
  exact absurd h (by decide)

end OSCompas.Timer
