import Mathlib
import OSCompas.Lib.Softirq
import OSCompas.Gpio.Driver

/-!
# Pulse width modulation (`lab5-1-raspberry-gpio-driver/examples/gpio_pwm.c`)

A timer drives the LED high and low in turn; a write to the device sets the period and the duty
cycle, starts and stops the timer, or is passed on to `gpio_write`. The processes that write and the
callback of the timer interleave between any two accesses.

* `Device` — `led_pwm`, the module parameters, the lines and the clock;
* `gpioWriteWithPwm`, `pwmTimerCallback` — the code, `driver` the system it makes up;
* `msecsToJiffies` — for a clock of `msPerJiffy` milliseconds a tick.

Principal results: `driver_recovers_iff` and `driver_stuck` (the callback can spin for good on top
of a writer that has the lock), `dutyCycle_le` and `dutyCycle_any` (one writer never sets a duty
cycle above 100, two can set any), `stopped_dark` and `stop_lost`, and `pulses_spaced`.
-/

set_option autoImplicit false

namespace OSCompas.Gpio.Pwm

open Function Progress Softirq

/-! ## The device -/

def EFAULT : Int := 14

/-- The module parameters, the fields of `led_pwm`, the time at which its timer expires if it is
pending, the levels of the pins, and `jiffies`; `log` is what has been set on a pin and when, the
latest first. -/
structure Device where
  pwmPeriod : UInt32
  pwmDuty : UInt32
  gpioPin : Int
  periodMs : UInt32
  dutyCycle : UInt32
  state : UInt32
  timer : Option Nat
  lines : Int → Bool
  jiffies : Nat
  log : List (Nat × Bool)

/-- `MAX_JIFFY_OFFSET`. -/
def MAX_JIFFY_OFFSET : Nat := 2 ^ 62 - 2

/-- `msecs_to_jiffies`. -/
def msecsToJiffies (msPerJiffy : Nat) (m : UInt32) : Nat :=
  if m.toNat < 2 ^ 31 then (m.toNat + (msPerJiffy - 1)) / msPerJiffy else MAX_JIFFY_OFFSET

/-- `gpio_set_value` on the pin of the LED. -/
def Device.setValue (s : Device) (level : Bool) : Device :=
  { s with lines := update s.lines s.gpioPin level, log := (s.jiffies, level) :: s.log }

/-- `mod_timer`, for a time from now; a timer never expires before the next tick. -/
def Device.modTimer (s : Device) (ticks : Nat) : Device :=
  { s with timer := some (s.jiffies + max ticks 1) }

abbrev Procedure (ρ : Type) := Code Device ρ

/-! ## The source -/

section Source

variable (msPerJiffy : Nat)

/-- `pwm_timer_callback`. -/
def pwmTimerCallback : Procedure Unit :=
  .lock <| .test fun s =>
  if s.state = 0 then
    .act (fun s => s.setValue true) <|
    .act (fun s => { s with state := 1 }) <|
    .act (fun s => s.modTimer (msecsToJiffies msPerJiffy (s.periodMs * s.dutyCycle / 100))) <|
    .unlock <| .ret ()
  else
    .act (fun s => s.setValue false) <|
    .act (fun s => { s with state := 0 }) <|
    .act (fun s =>
      s.modTimer (msecsToJiffies msPerJiffy (s.periodMs * (100 - s.dutyCycle) / 100))) <|
    .unlock <| .ret ()

end Source

/-- `isspace` of the kernel. -/
def isSpace (c : Char) : Bool := c = ' ' || ('\t' ≤ c && c ≤ '\r') || c = '\xa0'

/-- `%u`: the number and what is behind it. -/
def scanUInt (l : List Char) : Option (UInt32 × List Char) :=
  let l := l.dropWhile isSpace
  let digits := l.takeWhile Char.isDigit
  if digits.isEmpty then none
  else some (UInt32.ofNat (digits.foldl (fun n c => n * 10 + (c.toNat - '0'.toNat)) 0),
    l.dropWhile Char.isDigit)

/-- What follows `pwm `; `len` is what the write returns. -/
def pwmCommand (len : Int) (args : List Char) : Procedure Int :=
  match scanUInt args with
  | none => .ret (-EINVAL)
  | some (period, rest) =>
    .act (fun s => { s with pwmPeriod := period }) <|
    match scanUInt rest with
    | none => .ret (-EINVAL)
    | some (duty, _) =>
      .act (fun s => { s with pwmDuty := duty }) <|
      .test fun s =>
      if 100 < s.pwmDuty then .ret (-EINVAL)
      else
        .lock <|
        .act (fun s => { s with periodMs := s.pwmPeriod }) <|
        .act (fun s => { s with dutyCycle := s.pwmDuty }) <|
        .test fun s =>
        if s.timer.isSome then
          .act (fun s => { s with timer := none }) <|
          .act (fun s => { s with state := 0 }) <|
          .act (fun s => s.setValue false) <|
          .act (fun s => s.modTimer 0) <|
          .unlock <| .ret len
        else .unlock <| .ret len

/-- `pwm_start` -/
def pwmStart (len : Int) : Procedure Int :=
  .test fun s =>
  if s.timer.isSome then .ret len
  else
    .act (fun s => { s with state := 0 }) <|
    .act (fun s => s.setValue false) <|
    .act (fun s => s.modTimer 0) <| .ret len

/-- `pwm_stop` -/
def pwmStop (len : Int) : Procedure Int :=
  .test fun s =>
  if s.timer.isSome then
    .act (fun s => { s with timer := none }) <|
    .act (fun s => s.setValue false) <| .ret len
  else .ret len

/-- `gpio_write` of `gpio_led.c`, for the byte it copies, if it can be copied. -/
def gpioWrite : Option Char → Procedure Int
  | none => .ret (-EFAULT)
  | some value =>
    if value = '1' then .act (fun s => s.setValue true) <| .ret 1
    else if value = '0' then .act (fun s => s.setValue false) <| .ret 1
    else .ret (-EINVAL)

/-- A call of `write`: the bytes in the user's buffer, whether they can be copied, and what is there
when `gpio_write` copies the first one again. -/
structure Write where
  buf : List Char
  copied : Bool
  value : Option Char

/-- `cmd`, as the string functions read it. -/
def Write.cmd (w : Write) : List Char := w.buf.takeWhile (· ≠ '\x00')

/-- `gpio_write_with_pwm`. -/
def gpioWriteWithPwm (w : Write) : Procedure Int :=
  let len := w.buf.length
  if len = 0 ∨ 15 < len then .ret (-EINVAL)
  else if w.copied = false then .ret (-EFAULT)
  else if ['p', 'w', 'm', ' '].isPrefixOf w.cmd then pwmCommand len (w.cmd.drop 4)
  else if w.cmd = ['p', 'w', 'm', '_', 's', 't', 'a', 'r', 't'] then pwmStart len
  else if w.cmd = ['p', 'w', 'm', '_', 's', 't', 'o', 'p'] then pwmStop len
  else gpioWrite w.value

/-- What `sscanf` finds in a write that gets as far as that: the period and the duty cycle. -/
def Write.settings (w : Write) : Option (UInt32 × UInt32) :=
  if 0 < w.buf.length ∧ w.buf.length ≤ 15 ∧ w.copied = true ∧
      ['p', 'w', 'm', ' '].isPrefixOf w.cmd = true then
    (scanUInt (w.cmd.drop 4)).bind fun p => (scanUInt p.2).map fun d => (p.1, d.1)
  else none

/-- What happens besides: a tick of the clock, and writes to the files of the module parameters. -/
inductive Event where
  | tick
  | pwmPeriod (v : UInt32)
  | pwmDuty (v : UInt32)
  | gpioPin (v : Int)

def Device.event (s : Device) : Event → Device
  | .tick => { s with jiffies := s.jiffies + 1 }
  | .pwmPeriod v => { s with pwmPeriod := v }
  | .pwmDuty v => { s with pwmDuty := v }
  | .gpioPin v => { s with gpioPin := v }

/-- The timer is pending and its time has come. -/
def Device.expired (s : Device) : Bool := s.timer.any (· ≤ s.jiffies)

def driver (msPerJiffy : Nat) : System Device Int Write Event where
  code := gpioWriteWithPwm
  callback := pwmTimerCallback msPerJiffy
  expired := Device.expired
  detach s := { s with timer := none }
  event e s := s.event e

/-- `init_pwm`, with the parameters the module was loaded with. -/
def initPwm (pwmPeriod pwmDuty : UInt32) (gpioPin : Int) (lines : Int → Bool) (jiffies : Nat) :
    Device where
  pwmPeriod := pwmPeriod
  pwmDuty := pwmDuty
  gpioPin := gpioPin
  periodMs := pwmPeriod
  dutyCycle := pwmDuty
  state := 0
  timer := none
  lines := lines
  jiffies := jiffies
  log := []

variable {ι : Type} [DecidableEq ι] {T : Nat} {as : List (Action ι Write Event)}
  {m : Machine ι Device Int} {i : ι}

/-! ## The lock -/

instance nonemptyDevice : Nonempty Device := ⟨initPwm 0 0 0 (fun _ => false) 0⟩

theorem pwmCommand_orderly (len : Int) (args : List Char) :
    (pwmCommand len args).Orderly false := by
  unfold pwmCommand
  split
  · simp
  · rw [Code.orderly_act]
    split
    · simp
    · simp only [Code.orderly_act, Code.orderly_test]
      intro s
      split
      · simp
      · simp only [Code.orderly_lock, Code.orderly_act, Code.orderly_test, true_and]
        intro s
        split <;> simp

theorem gpioWriteWithPwm_orderly (w : Write) : (gpioWriteWithPwm w).Orderly false := by
  unfold gpioWriteWithPwm
  dsimp only
  split
  · simp
  split
  · simp
  split
  · exact pwmCommand_orderly _ _
  split
  · simp only [pwmStart, Code.orderly_test]
    intro s
    split <;> simp
  split
  · simp only [pwmStop, Code.orderly_test]
    intro s
    split <;> simp
  · unfold gpioWrite
    split
    · simp
    · split
      · simp
      · split <;> simp

theorem driver_orderly : (driver T).Orderly where
  code := gpioWriteWithPwm_orderly
  callback := by
    simp only [driver, pwmTimerCallback, Code.orderly_lock, Code.orderly_test, true_and]
    intro s
    split <;> simp
  locks := ⟨_, rfl⟩

/-- **The driver can come to rest, with the lock free, the callback done and every write returned,
exactly if the callback does not spin on top of the writer that has the lock.** -/
theorem driver_recovers_iff {d : Device} (h : as.foldlM (driver T).step (.idle d) = some m) :
    (∃ (bs : List (Action ι Write Event)) (m' : Machine ι Device Int),
      bs.foldlM (driver T).step m = some m' ∧ m'.AtRest) ↔ ∀ i, ¬ m.Stuck i := by
  obtain ⟨l, hl⟩ := (Machine.among_idle d).run h
  exact System.recovers_iff driver_orderly ((Machine.fits_idle d).run driver_orderly h) hl

/-- What is left of a write with settings. -/
theorem gpioWriteWithPwm_settings {w : Write} {period duty : UInt32}
    (h : w.settings = some (period, duty)) : ∃ args rest rest',
    gpioWriteWithPwm w = pwmCommand w.buf.length args ∧ scanUInt args = some (period, rest) ∧
      scanUInt rest = some (duty, rest') := by
  simp only [Write.settings] at h
  split at h
  · rename_i hw
    obtain ⟨h0, h15, hcopied, hpre⟩ := hw
    obtain ⟨⟨p, rest⟩, hp, h⟩ := Option.bind_eq_some_iff.mp h
    obtain ⟨⟨d, rest'⟩, hd, h⟩ := Option.map_eq_some_iff.mp h
    cases h
    refine ⟨_, rest, rest', ?_, hp, hd⟩
    have hlen : ¬ (w.buf.length = 0 ∨ 15 < w.buf.length) := by omega
    simp only [gpioWriteWithPwm, hlen, hcopied, hpre, if_false, if_true, Bool.true_eq_false]
  · cases h

/-- `echo -n pwm_start` -/
def start : Write := ⟨['p', 'w', 'm', '_', 's', 't', 'a', 'r', 't'], true, some 'p'⟩

/-- `echo -n pwm_stop` -/
def stop : Write := ⟨['p', 'w', 'm', '_', 's', 't', 'o', 'p'], true, some 'p'⟩

theorem gpioWriteWithPwm_start : gpioWriteWithPwm start = pwmStart 9 := rfl

theorem gpioWriteWithPwm_stop : gpioWriteWithPwm stop = pwmStop 8 := rfl

/-- `echo -n pwm 100 50` -/
def half : Write := ⟨['p', 'w', 'm', ' ', '1', '0', '0', ' ', '5', '0'], true, some 'p'⟩

theorem settings_half : half.settings = some (100, 50) := by decide

/-- `echo -n pwm 1 200`, which is rejected. -/
def double : Write := ⟨['p', 'w', 'm', ' ', '1', ' ', '2', '0', '0'], true, some 'p'⟩

theorem settings_double : double.settings = some (1, 200) := by decide

/-- The module loaded with its default parameters. -/
def defaults : Device := initPwm 100 50 17 (fun _ => false) 0

/-- In the middle of `pwm_start`. -/
theorem driver_recovers_iff_start : ∃ m : Machine Unit Device Int,
    ([.call () start, .run (), .run ()] : List (Action Unit Write Event)).foldlM (driver 4).step
        (.idle defaults) = some m ∧ (m.running ()).isSome = true ∧
      ((∃ (bs : List (Action Unit Write Event)) (m' : Machine Unit Device Int),
        bs.foldlM (driver 4).step m = some m' ∧ m'.AtRest) ↔ ∀ i, ¬ m.Stuck i) := by
  obtain ⟨m, hm, hrunning⟩ : ∃ m : Machine Unit Device Int,
      ([.call () start, .run (), .run ()] : List (Action Unit Write Event)).foldlM (driver 4).step
        (.idle defaults) = some m ∧ (m.running ()).isSome = true := ⟨_, rfl, rfl⟩
  exact ⟨m, hm, hrunning, driver_recovers_iff hm⟩

/-- Only process `i` and the clock take part in it. -/
def By (i : ι) : Action ι Write Event → Prop
  | .call j _ => j = i
  | .run j => j = i
  | .expire host => host = some i
  | .callback => True
  | .event e => e = .tick

/-- The writer starts the PWM and writes settings, and the timer expires on its processor when it
has the lock. -/
def stuckRun (i : ι) (w : Write) : List (Action ι Write Event) :=
  [.call i start, .run i, .run i, .run i, .run i, .run i, .call i w, .run i, .run i, .run i, .run i,
    .event .tick, .expire (some i)]

/-- **Every write of settings that is accepted can stop the driver for good**: the timer expires on
the writer's processor, and then the lock is never free again, the callback never ends, and the
write never returns. -/
theorem driver_stuck {w : Write} {period duty : UInt32} (hw : w.settings = some (period, duty))
    (hd : duty ≤ 100) {d : Device} (ht : d.timer = none) (i : ι) :
    ∃ (as : List (Action ι Write Event)) (m : Machine ι Device Int),
      as.foldlM (driver T).step (.idle d) = some m ∧ (∀ a ∈ as, By i a) ∧
        ∀ (bs : List (Action ι Write Event)) (m' : Machine ι Device Int),
          bs.foldlM (driver T).step m = some m' →
            m'.holder = some (some i) ∧ m'.callback ≠ none ∧ m'.returned i = [9] := by
  obtain ⟨args, rest, rest', hcode, hp, hd'⟩ := gpioWriteWithPwm_settings hw
  have hd100 : ¬ 100 < duty := UInt32.not_lt.mpr hd
  obtain ⟨m, hrun, hstuck, hret⟩ : ∃ m : Machine ι Device Int,
      (stuckRun i w).foldlM (driver T).step (.idle d) = some m ∧ m.Stuck i ∧
        m.returned i = [9] := by
    simp [stuckRun, System.step, Machine.next, Machine.idle, Machine.Under, Machine.Stuck, driver,
      gpioWriteWithPwm_start, pwmStart, hcode, pwmCommand, hp, hd', Code.act, Code.test, ht, hd100,
      Device.event, Device.expired, Device.modTimer, Device.setValue, pwmTimerCallback]
  refine ⟨_, m, hrun, by simp [stuckRun, By], fun bs m' h => ?_⟩
  have hm := (Machine.fits_idle d).run driver_orderly hrun
  obtain ⟨⟨hholder, k, hk⟩, -, hret'⟩ := hstuck.run driver_orderly hm h
  exact ⟨hholder, by simp [hk], hret'.trans hret⟩

theorem driver_stuck_half : ∃ (as : List (Action Unit Write Event)) (m : Machine Unit Device Int),
    as.foldlM (driver 4).step (.idle defaults) = some m ∧ (∀ a ∈ as, By () a) ∧
      ∀ (bs : List (Action Unit Write Event)) (m' : Machine Unit Device Int),
        bs.foldlM (driver 4).step m = some m' →
          m'.holder = some (some ()) ∧ m'.callback ≠ none ∧ m'.returned () = [9] :=
  driver_stuck settings_half (by decide) rfl ()

/-! ## The duty cycle -/

/-- Process `i` is the only one that writes to the device, and nobody writes to the parameter
`pwm_duty`. -/
def Single (i : ι) : Action ι Write Event → Prop
  | .call j _ => j = i
  | .event (.pwmDuty _) => False
  | _ => True

theorem pwmCommand_keeps (len : Int) (args : List Char) (s : Device) :
    (pwmCommand len args).Keeps (fun s t => t.pwmDuty = s.pwmDuty) (fun _ _ => True)
      (fun s => s.dutyCycle ≤ 100) s := by
  unfold pwmCommand
  split
  · simp
  · rw [Code.keeps_act]
    intro t _ ht
    refine ⟨trivial, ht, ?_⟩
    split
    · simp
    · simp only [Code.keeps_act, Code.keeps_test]
      intro t _ ht
      refine ⟨trivial, ht, fun u _ hu => ⟨trivial, hu, ?_⟩⟩
      split
      · simp
      · -- the parameter has been tested, and nobody else writes to it
        rename_i hduty
        simp only [Code.keeps_lock, Code.keeps_act, Code.keeps_test]
        refine fun v hv h v' hv' h' => ⟨trivial, h', fun v'' hv'' _ => ?_⟩
        have hle : v''.pwmDuty ≤ 100 := by
          rw [hv'', hv', hv]
          exact UInt32.not_lt.mp hduty
        refine ⟨trivial, hle, fun x _ hx => ⟨trivial, hx, ?_⟩⟩
        split <;> simp +contextual [Device.setValue, Device.modTimer]

/-- The only writer: nobody else writes to the parameters, and its duty cycle is at most 100. -/
def single (i : ι) : Contract (driver T) ({i} : Set ι) where
  inv s := s.dutyCycle ≤ 100
  rely s t := t.pwmDuty = s.pwmDuty
  guar _ _ := True
  callbackRely _ _ := True
  calls _ := True
  events e := ∀ v, e ≠ .pwmDuty v
  refl _ := ⟨rfl, trivial⟩
  trans _ _ _ h h' := h'.trans h
  callbackTrans _ _ _ _ _ := trivial
  code w _ s _ := by
    simp only [driver, gpioWriteWithPwm]
    split
    · simp
    split
    · simp
    split
    · exact pwmCommand_keeps _ _ s
    split
    · simp only [pwmStart, Code.keeps_test]
      refine fun t _ ht => ⟨trivial, ht, ?_⟩
      split <;> simp +contextual [Device.setValue, Device.modTimer]
    split
    · simp only [pwmStop, Code.keeps_test]
      refine fun t _ ht => ⟨trivial, ht, ?_⟩
      split <;> simp +contextual [Device.setValue]
    · unfold gpioWrite
      split
      · simp
      · split
        · simp +contextual [Device.setValue]
        · split <;> simp +contextual [Device.setValue]
  callback s hs _ := by
    refine ⟨rfl, hs, ?_⟩
    simp only [driver, pwmTimerCallback, Code.keeps_lock, Code.keeps_test]
    refine fun t _ ht u _ hu => ⟨trivial, hu, ?_⟩
    split <;> simp +contextual [Device.setValue, Device.modTimer]
  event e he s hs := by
    cases e with
    | pwmDuty v => exact (he v rfl).elim
    | tick | pwmPeriod v | gpioPin v => exact ⟨rfl, trivial, hs⟩
  others j hj k hk hne := (hne (hj.trans hk.symm)).elim
  above _ _ _ _ _ := trivial

/-- **A single writer never sets a duty cycle above 100**, however the callback interleaves with
it. -/
theorem dutyCycle_le {d : Device} (hd : d.dutyCycle ≤ 100)
    (h : as.foldlM (driver T).step (.idle d) = some m) (ha : ∀ a ∈ as, Single i a) :
    m.data.dutyCycle ≤ 100 := by
  refine (Contract.holds (C := single (T := T) i) (Contract.holds_idle _ hd) (fun a ham => ?_)
    h).data
  have := ha a ham
  cases a with
  | call j w => exact ⟨this, trivial⟩
  | event e =>
    rintro v rfl
    exact this
  | run j | expire host | callback => trivial

/-- The timer expires while a write has the lock, and somebody writes to `pwm_period`. -/
def halfRun : List (Action Unit Write Event) :=
  [.call () start, .run (), .run (), .run (), .run (), .run (), .call () half, .run (), .run (),
    .run (), .run (), .event .tick, .expire none, .callback, .event (.pwmPeriod 7), .run (),
    .run (), .run (), .run (), .run ()]

theorem dutyCycle_le_half : ∃ m : Machine Unit Device Int,
    halfRun.foldlM (driver 4).step (.idle defaults) = some m ∧ m.returned () = [9, 10] ∧
      m.data.periodMs = 7 ∧ m.data.dutyCycle ≤ 100 := by
  obtain ⟨m, hm, hret, hperiod⟩ : ∃ m : Machine Unit Device Int,
      halfRun.foldlM (driver 4).step (.idle defaults) = some m ∧ m.returned () = [9, 10] ∧
        m.data.periodMs = 7 := ⟨_, rfl, rfl, rfl⟩
  exact ⟨m, hm, hret, hperiod, dutyCycle_le (i := ()) (by decide) hm (by simp [halfRun, Single])⟩

/-- Between the test and the lock of the first write, the second one scans its parameters. -/
def raceRun (i j : ι) (w w' : Write) : List (Action ι Write Event) :=
  [.call i w, .run i, .run i, .run i, .call j w', .run j, .run j, .run i, .run i, .run i]

/-- **Two writers can set any duty cycle**: the first one copies the parameters that the second one
has overwritten since they were tested. -/
theorem dutyCycle_any {w w' : Write} {period duty period' duty' : UInt32}
    (hw : w.settings = some (period, duty)) (hd : duty ≤ 100)
    (hw' : w'.settings = some (period', duty')) {i j : ι} (hij : i ≠ j) (d : Device) :
    ∃ (as : List (Action ι Write Event)) (m : Machine ι Device Int),
      as.foldlM (driver T).step (.idle d) = some m ∧ (∀ a ∈ as, Single i a ∨ Single j a) ∧
        m.data.periodMs = period' ∧ m.data.dutyCycle = duty' := by
  obtain ⟨args, rest, end', hcode, hp, hd'⟩ := gpioWriteWithPwm_settings hw
  obtain ⟨args', rest', end'', hcode', hp', hd''⟩ := gpioWriteWithPwm_settings hw'
  have hd100 : ¬ 100 < duty := UInt32.not_lt.mpr hd
  refine ⟨raceRun i j w w', ?_⟩
  simp [raceRun, Single, System.step, Machine.next, Machine.idle, Machine.Under, driver, hcode,
    hcode', pwmCommand, hp, hd', hp', hd'', Code.act, Code.test, hd100, hij, hij.symm]

theorem dutyCycle_any_double :
    ∃ (as : List (Action Bool Write Event)) (m : Machine Bool Device Int),
      as.foldlM (driver 4).step (.idle defaults) = some m ∧
        (∀ a ∈ as, Single false a ∨ Single true a) ∧
          m.data.periodMs = 1 ∧ m.data.dutyCycle = 200 :=
  dutyCycle_any settings_half (by decide) settings_double (by decide) defaults

/-! ## Stopping -/

/-- No write runs, and the callback does not. -/
def Quiet (m : Machine ι Device Int) : Prop :=
  m.holder = none ∧ (∀ j, m.running j = none) ∧ m.callback = none

/-- Neither `pwm_start` nor a `1` is written, and the pin is not changed. -/
def Dark : Action ι Write Event → Prop
  | .call _ w => w.cmd ≠ start.cmd ∧ w.value ≠ some '1'
  | .event (.gpioPin _) => False
  | _ => True

/-- A whole call of `pwm_start` that finds the timer not pending. -/
def startRun (i : ι) : List (Action ι Write Event) :=
  [.call i start, .run i, .run i, .run i, .run i, .run i]

theorem startRun_run (hm : Quiet m) (ht : m.data.timer = none) : ∃ u : Machine ι Device Int,
    (startRun i).foldlM (driver T).step m = some u ∧ Quiet u ∧
      u.data.timer = some (u.data.jiffies + 1) ∧ u.returned i = m.returned i ++ [9] := by
  obtain ⟨hholder, hrunning, hcallback⟩ := hm
  simp [startRun, Quiet, System.step, Machine.next, Machine.Under, driver, gpioWriteWithPwm_start,
    pwmStart, Code.act, Code.test, hholder, hrunning, hcallback, ht, Device.setValue,
    Device.modTimer, update_apply]

/-- A whole call of `pwm_stop` that finds the timer pending. -/
def stopRun (i : ι) : List (Action ι Write Event) :=
  [.call i stop, .run i, .run i, .run i, .run i]

/-- The PWM is stopped: only `pwm_start` and `1` would change that. -/
def stopped : Contract (driver T) (Set.univ : Set ι) where
  inv s := s.timer = none ∧ s.lines s.gpioPin = false
  rely _ _ := True
  guar _ _ := True
  callbackRely _ _ := True
  calls w := w.cmd ≠ start.cmd ∧ w.value ≠ some '1'
  events e := ∀ v, e ≠ .gpioPin v
  refl _ := ⟨trivial, trivial⟩
  trans _ _ _ _ _ := trivial
  callbackTrans _ _ _ _ _ := trivial
  code w hw s _ := by
    simp only [driver, gpioWriteWithPwm]
    split
    · simp
    split
    · simp
    split
    · unfold pwmCommand
      split
      · simp
      · simp only [Code.keeps_act]
        refine fun t _ ht => ⟨trivial, ht, ?_⟩
        split
        · simp
        · simp only [Code.keeps_act, Code.keeps_test]
          refine fun t _ ht => ⟨trivial, ht, fun u _ hu => ⟨trivial, hu, ?_⟩⟩
          split
          · simp
          · simp +contextual
    split
    · rename_i hstart
      exact (hw.1 hstart).elim
    split
    · simp +contextual [pwmStop]
    · unfold gpioWrite
      split
      · simp
      · split
        · rename_i value hvalue hone
          exact (hw.2 (hone ▸ hvalue)).elim
        · split <;> simp +contextual [Device.setValue]
  callback s hs he := by simp [driver, Device.expired, hs.1] at he
  event e he s hs := by
    cases e with
    | gpioPin v => exact (he v rfl).elim
    | tick | pwmPeriod v | pwmDuty v => exact ⟨trivial, trivial, hs⟩
  others _ _ _ _ _ _ _ _ := trivial
  above _ _ _ _ _ := trivial

theorem stopRun_run (hm : Quiet m) (ht : m.data.timer ≠ none) : ∃ u : Machine ι Device Int,
    (stopRun i).foldlM (driver T).step m = some u ∧ Quiet u ∧ u.data.timer = none ∧
      u.data.lines u.data.gpioPin = false := by
  obtain ⟨hholder, hrunning, hcallback⟩ := hm
  have hpending : m.data.timer.isSome = true := Option.isSome_iff_ne_none.mpr ht
  simp [stopRun, Quiet, System.step, Machine.next, Machine.Under, driver, gpioWriteWithPwm_stop,
    pwmStop, Code.act, Code.test, hholder, hrunning, hcallback, hpending, Device.setValue,
    update_apply]

/-- **A `pwm_stop` that finds the timer pending turns the LED off for good**: until somebody writes
`pwm_start` or a `1`, the timer is never pending and the LED never on, whatever else is written. -/
theorem stopped_dark {m' : Machine ι Device Int} (hm : Quiet m) (ht : m.data.timer ≠ none)
    (h : (stopRun i ++ as).foldlM (driver T).step m = some m') (ha : ∀ a ∈ as, Dark a) :
    m'.data.timer = none ∧ m'.data.lines m'.data.gpioPin = false := by
  obtain ⟨u, hu, h⟩ := foldlM_append_some.mp h
  obtain ⟨u', hu', ⟨-, hrunning, hcallback⟩, hdark⟩ := stopRun_run (T := T) (i := i) hm ht
  obtain rfl : u' = u := Option.some.inj (hu'.symm.trans hu)
  have hstart : (stopped (ι := ι) (T := T)).Holds u' :=
    ⟨hdark, by simp [hrunning], by simp [hcallback]⟩
  refine (Contract.holds hstart (fun a ham => ?_) h).data
  have := ha a ham
  cases a with
  | call j w => exact ⟨trivial, this⟩
  | event e =>
    rintro v rfl
    exact this
  | run j | expire host | callback => trivial

/-- Settings, a `0` and the clock, once the PWM has been stopped. -/
def afterStop : List (Action Unit Write Event) :=
  .call () half :: List.replicate 9 (.run ()) ++
    [.event .tick, .call () ⟨['0'], true, some '0'⟩, .run (), .run (), .event .tick]

/-- A start, a stop, and writes. -/
theorem stopped_dark_start : ∃ m : Machine Unit Device Int,
    (startRun () ++ (stopRun () ++ afterStop)).foldlM (driver 4).step (.idle defaults) = some m ∧
      m.returned () = [9, 8, 10, 1] ∧ m.data.timer = none ∧
        m.data.lines m.data.gpioPin = false := by
  obtain ⟨u, m, hu, hquiet, hpending, hm, hret⟩ : ∃ u m : Machine Unit Device Int,
      (startRun ()).foldlM (driver 4).step (.idle defaults) = some u ∧ Quiet u ∧
        u.data.timer ≠ none ∧ (stopRun () ++ afterStop).foldlM (driver 4).step u = some m ∧
          m.returned () = [9, 8, 10, 1] :=
    ⟨_, _, rfl, ⟨rfl, fun _ => rfl, rfl⟩, Option.some_ne_none _, rfl, rfl⟩
  have hdark := stopped_dark hquiet hpending hm (by simp [afterStop, half, start, Write.cmd, Dark])
  exact ⟨m, foldlM_append_some.mpr ⟨u, hu, hm⟩, hret, hdark⟩

/-! ## The pulses -/

/-- The timer is pending, and nothing runs. -/
def Live (m : Machine ι Device Int) : Prop := Quiet m ∧ m.data.timer ≠ none

/-- No process takes part in it, and the parameters stay as they are. -/
def Alone : Action ι Write Event → Prop
  | .call _ _ => False
  | .run _ => False
  | .event e => e = .tick
  | _ => True

theorem ticks_run (n : Nat) (m : Machine ι Device Int) :
    (List.replicate n (.event .tick)).foldlM (driver T).step m =
      some { m with data := { m.data with jiffies := m.data.jiffies + n } } := by
  induction n generalizing m with
  | zero => rfl
  | succ n ih =>
    have hstep : (driver T).step m (.event .tick) =
        some { m with data := { m.data with jiffies := m.data.jiffies + 1 } } := rfl
    rw [List.replicate_succ, foldlM_cons_some.mpr ⟨_, hstep, ih _⟩]
    simp [Nat.add_assoc, Nat.add_comm 1 n]

/-- The whole callback, once the timer has expired. -/
theorem callback_run (hm : Quiet m) (he : m.data.expired = true) : ∃ m' : Machine ι Device Int,
    (.expire none :: List.replicate 7 .callback).foldlM (driver T).step m = some m' ∧ Live m' ∧
      m'.returned = m.returned ∧ m'.data.state = (if m.data.state = 0 then 1 else 0) ∧
      m'.data.log = (m.data.jiffies, decide (m.data.state = 0)) :: m.data.log := by
  obtain ⟨hholder, hrunning, hcallback⟩ := hm
  by_cases hs : m.data.state = 0 <;>
    simp [List.replicate, Live, Quiet, System.step, Machine.nextCallback, driver, pwmTimerCallback,
      Code.act, Code.test, hholder, hrunning, hcallback, he, hs, Device.setValue, Device.modTimer]

/-- Left alone, the callback sets the LED once more, to the other level. -/
theorem Live.toggle (hm : Live m) :
    ∃ (as : List (Action ι Write Event)) (m' : Machine ι Device Int),
      as.foldlM (driver T).step m = some m' ∧ (∀ a ∈ as, Alone a) ∧ Live m' ∧
        m'.data.state = (if m.data.state = 0 then 1 else 0) ∧
        ∃ t, m'.data.log = (t, decide (m.data.state = 0)) :: m.data.log := by
  obtain ⟨hquiet, ht⟩ := hm
  obtain ⟨e, he⟩ := Option.ne_none_iff_exists'.mp ht
  obtain ⟨m', hrun, hlive, -, hstate, hlog⟩ := callback_run (T := T) (m := { m with
    data := { m.data with jiffies := m.data.jiffies + e } }) hquiet (by simp [Device.expired, he])
  refine ⟨_, m', foldlM_append_some.mpr ⟨_, ticks_run e m, hrun⟩, fun a ha => ?_, hlive, hstate, _,
    hlog⟩
  obtain ha | ha := List.mem_append.mp ha
  · rw [List.eq_of_mem_replicate ha]
    exact rfl
  · obtain rfl | ha := List.mem_cons.mp ha
    · trivial
    · rw [List.eq_of_mem_replicate ha]
      trivial

/-- How often the LED has been turned on. -/
def turnedOn (s : Device) : Nat := s.log.countP (·.2)

/-- Left alone, the PWM goes on for good. -/
theorem Live.goes_on (hm : Live m) (n : Nat) :
    ∃ (as : List (Action ι Write Event)) (m' : Machine ι Device Int),
      as.foldlM (driver T).step m = some m' ∧ (∀ a ∈ as, Alone a) ∧ Live m' ∧
        turnedOn m'.data = turnedOn m.data + n := by
  induction n with
  | zero => exact ⟨[], m, rfl, by simp, hm, rfl⟩
  | succ n ih =>
    obtain ⟨as, u, hu, has, hlive, hon⟩ := ih
    obtain ⟨bs, v, hv, hbs, hlive', hstate, t, hlog⟩ := hlive.toggle (T := T)
    by_cases h0 : u.data.state = 0
    · refine ⟨as ++ bs, v, foldlM_append_some.mpr ⟨u, hu, hv⟩, ?_, hlive', ?_⟩
      · exact List.forall_mem_append.mpr ⟨has, hbs⟩
      · rw [turnedOn, hlog, List.countP_cons, ← turnedOn, hon]
        simp [h0, Nat.add_assoc]
    · -- the LED is on: first it is turned off
      obtain ⟨cs, w, hw, hcs, hlive'', -, t', hlog'⟩ := hlive'.toggle (T := T)
      rw [if_neg h0] at hstate
      refine ⟨as ++ (bs ++ cs), w, ?_, ?_, hlive'', ?_⟩
      · exact foldlM_append_some.mpr ⟨u, hu, foldlM_append_some.mpr ⟨v, hv, hw⟩⟩
      · exact List.forall_mem_append.mpr ⟨has, List.forall_mem_append.mpr ⟨hbs, hcs⟩⟩
      · rw [turnedOn, hlog', List.countP_cons, hlog, List.countP_cons, ← turnedOn, hon]
        simp [h0, hstate, Nat.add_assoc]

/-- The callback has begun when `pwm_stop` is written, and goes on when it has returned. -/
def lostStop (i : ι) : List (Action ι Write Event) :=
  .expire none :: .call i stop :: .run i :: .run i :: List.replicate 7 .callback

theorem lostStop_run (hm : Quiet m) (he : m.data.expired = true) : ∃ u : Machine ι Device Int,
    (lostStop i).foldlM (driver T).step m = some u ∧ Live u ∧
      u.returned i = m.returned i ++ [8] := by
  obtain ⟨hholder, hrunning, hcallback⟩ := hm
  by_cases hs : m.data.state = 0 <;>
    simp [lostStop, List.replicate, Live, Quiet, System.step, Machine.next, Machine.nextCallback,
      Machine.Under, driver, gpioWriteWithPwm_stop, pwmStop, pwmTimerCallback, Code.act, Code.test,
      hholder, hrunning, hcallback, he, hs, Device.setValue, Device.modTimer, update_apply]

/-- **A `pwm_stop` can be lost**: while the callback runs the timer is not pending, so the stop has
nothing to do; it returns as always, and the LED is turned on again any number of times. -/
theorem stop_lost {d : Device} (ht : d.timer = none) (i : ι) :
    ∃ m : Machine ι Device Int,
      (startRun i ++ .event .tick :: lostStop i).foldlM (driver T).step (.idle d) = some m ∧
        Quiet m ∧ m.returned i = [9, 8] ∧
        ∀ n, ∃ (as : List (Action ι Write Event)) (m' : Machine ι Device Int),
          as.foldlM (driver T).step m = some m' ∧ (∀ a ∈ as, Alone a) ∧
            turnedOn m'.data = turnedOn m.data + n := by
  have hidle : Quiet (.idle d : Machine ι Device Int) := ⟨rfl, fun _ => rfl, rfl⟩
  obtain ⟨u, hu, hquiet, htimer, hret⟩ := startRun_run (T := T) (i := i) hidle ht
  have hexp : (u.data.event .tick).expired = true := by
    simp [Device.expired, Device.event, htimer]
  obtain ⟨m, hrun, hlive, hret'⟩ := lostStop_run (T := T) (i := i)
    (m := { u with data := u.data.event .tick }) hquiet hexp
  refine ⟨m, foldlM_append_some.mpr ⟨u, hu, foldlM_cons_some.mpr ⟨_, rfl, hrun⟩⟩, hlive.1, ?_,
    fun n => ?_⟩
  · rw [hret', hret]
    rfl
  · obtain ⟨as, m', h, ha, -, hon⟩ := hlive.goes_on (T := T) n
    exact ⟨as, m', h, ha, hon⟩

theorem stop_lost_defaults : ∃ m : Machine Unit Device Int,
    (startRun () ++ .event .tick :: lostStop ()).foldlM (driver 4).step (.idle defaults) = some m ∧
      Quiet m ∧ m.returned () = [9, 8] ∧
      ∀ n, ∃ (as : List (Action Unit Write Event)) (m' : Machine Unit Device Int),
        as.foldlM (driver 4).step m = some m' ∧ (∀ a ∈ as, Alone a) ∧
          turnedOn m'.data = turnedOn m.data + n :=
  stop_lost rfl ()

/-- Only the clock has gone on. -/
def Later (s t : Device) : Prop := ∃ n, t = { s with jiffies := s.jiffies + n }

theorem Later.refl (s : Device) : Later s s := ⟨0, rfl⟩

theorem Later.trans {s t u : Device} (h : Later s t) (h' : Later t u) : Later s u := by
  obtain ⟨n, rfl⟩ := h
  obtain ⟨k, rfl⟩ := h'
  exact ⟨n + k, by simp [Nat.add_assoc]⟩

/-- The callback leaves the timer pending. -/
theorem pwmTimerCallback_ends (s : Device) :
    (pwmTimerCallback T).Ends Later (fun s => s.timer ≠ none) s := by
  have hpending {s t : Device} {n : Nat} (h : Later (s.modTimer n) t) : t.timer ≠ none := by
    obtain ⟨k, rfl⟩ := h
    exact Option.some_ne_none _
  simp only [pwmTimerCallback, Code.ends_lock, Code.ends_test]
  intro t _ u _
  split
  · simp only [Code.ends_act, Code.ends_unlock, Code.ends_ret]
    exact fun _ _ _ _ _ _ _ h _ h' => hpending (h.trans h')
  · simp only [Code.ends_act, Code.ends_unlock, Code.ends_ret]
    exact fun _ _ _ _ _ _ _ h _ h' => hpending (h.trans h')

/-- No process runs, and the timer is pending, or the callback will set it. -/
structure Ticking (m : Machine ι Device Int) : Prop where
  running : ∀ i, m.running i = none
  pending : m.callback = none → m.data.timer ≠ none
  callback : ∀ host c, m.callback = some (host, c) →
    c.Ends Later (fun s => s.timer ≠ none) m.data

omit [DecidableEq ι] in
theorem Ticking.of_callback {host : Option ι} {c : Procedure Unit} (hr : ∀ i, m.running i = none)
    (hc : m.callback = some (host, c)) (hends : c.Ends Later (fun s => s.timer ≠ none) m.data) :
    Ticking m := by
  refine ⟨hr, fun hnone => ?_, fun host' c' hc' => ?_⟩
  · rw [hc] at hnone
    cases hnone
  · rw [hc] at hc'
    cases hc'
    exact hends

theorem Ticking.step {m' : Machine ι Device Int} {a : Action ι Write Event} (hm : Ticking m)
    (ha : Alone a) (h : (driver T).step m a = some m') : Ticking m' := by
  cases a with
  | call i w => exact ha.elim
  | run i => exact ha.elim
  | expire host =>
    simp only [System.step] at h
    split at h <;> cases h
    exact .of_callback hm.running rfl (pwmTimerCallback_ends _)
  | callback =>
    obtain ⟨⟨host, c⟩, hc, rfl⟩ := Option.map_eq_some_iff.mp h
    have hends := hm.callback host c hc
    cases c with
    | ret r =>
      refine ⟨hm.running, fun _ => hends _ (.refl _), fun host' c' hc' => ?_⟩
      cases hc'
    | step f k => exact .of_callback hm.running rfl (hends _ (.refl _))
    | lock k =>
      simp only [Machine.nextCallback]
      split
      · exact .of_callback hm.running rfl (hends _ (.refl _))
      · exact hm
    | unlock k => exact .of_callback hm.running rfl (hends _ (.refl _))
  | event e =>
    cases h
    obtain rfl : e = .tick := ha
    exact ⟨hm.running, hm.pending, fun host c hc =>
      (hm.callback host c hc).mono fun u hu => Later.trans ⟨1, rfl⟩ hu⟩

/-- Left alone, the callback comes to its end, with the timer pending. -/
theorem Ticking.live (hf : m.Fits (driver T)) (hm : Ticking m) :
    ∃ (as : List (Action ι Write Event)) (m' : Machine ι Device Int),
      as.foldlM (driver T).step m = some m' ∧ (∀ a ∈ as, Alone a) ∧ Live m' := by
  have hfree (i : ι) : m.holder ≠ some (some i) := fun h => hf.holder i h (hm.running i)
  cases hc : m.callback with
  | none =>
    have hnone := m.holder_eq_none hfree fun ho => hf.owner ho hc
    exact ⟨[], m, rfl, by simp, ⟨hnone, hm.running, hc⟩, hm.pending hc⟩
  | some p =>
    obtain ⟨as, m', hrun, has, hh, hcb, hr⟩ := hf.finish driver_orderly hfree hc
    have halone : ∀ a ∈ as, Alone a := fun a ha => has a ha ▸ trivial
    have hm' : Ticking m' :=
      invariant_foldlM_of (fun _ _ _ h ha ht => Ticking.step h ha ht) halone hm hrun
    exact ⟨as, m', hrun, halone, ⟨hh, hm'.running, hcb⟩, hm'.pending hcb⟩

/-- How long the callback keeps the LED at a level, in ticks. -/
def hold (T : Nat) (periodMs dutyCycle : UInt32) (level : Bool) : Nat :=
  max (msecsToJiffies T (periodMs * (if level then dutyCycle else 100 - dutyCycle) / 100)) 1

/-- The levels alternate, and each is kept as long as it has to be. -/
def Spaced (hold : Bool → Nat) (log : List (Nat × Bool)) : Prop :=
  log.IsChain fun p q => p.2 = !q.2 ∧ q.1 + hold q.2 ≤ p.1

/-- The settings stay, the pulses so far are spaced, begin with the LED on and end with the level it
has, and when the timer is pending `state` is the level last set, which ends in time. -/
structure Wave (T : Nat) (periodMs dutyCycle : UInt32) (s : Device) : Prop where
  period : s.periodMs = periodMs
  duty : s.dutyCycle = dutyCycle
  spaced : Spaced (hold T periodMs dutyCycle) s.log
  past : ∀ q ∈ s.log.head?, q.1 ≤ s.jiffies
  first : ∀ q ∈ s.log.getLast?, q.2 = true
  level : ∀ q ∈ s.log.head?, s.lines s.gpioPin = q.2
  pending : ∀ e, s.timer = some e → (s.state = 0 ↔ ∀ q ∈ s.log.head?, q.2 = false) ∧
    ∀ q ∈ s.log.head?, q.1 + hold T periodMs dutyCycle q.2 ≤ e

/-- Nobody but the callback sets the LED. -/
def Undisturbed (s t : Device) : Prop :=
  t.log = s.log ∧ t.state = s.state ∧ t.timer = s.timer ∧ s.jiffies ≤ t.jiffies

/-- While the timer is not pending, setting the LED to the other level in time keeps the wave. -/
theorem Wave.setValue {periodMs dutyCycle : UInt32} {b : Bool} {s : Device}
    (h : Wave T periodMs dutyCycle s) (htimer : s.timer = none)
    (hnext : ∀ q ∈ s.log.head?, b = !q.2 ∧ q.1 + hold T periodMs dutyCycle q.2 ≤ s.jiffies)
    (hfirst : s.log = [] → b = true) : Wave T periodMs dutyCycle (s.setValue b) where
  period := h.period
  duty := h.duty
  spaced := List.isChain_cons.mpr ⟨hnext, h.spaced⟩
  past q hq := by
    obtain rfl : (s.jiffies, b) = q := by simpa [Device.setValue] using hq
    exact Nat.le_refl _
  first q hq := by
    cases hlog : s.log with
    | nil =>
      obtain rfl : (s.jiffies, b) = q := by simpa [Device.setValue, hlog] using hq
      exact hfirst hlog
    | cons p l => exact h.first q (by simpa [Device.setValue, hlog] using hq)
  level q hq := by
    obtain rfl : (s.jiffies, b) = q := by simpa [Device.setValue] using hq
    exact update_self _ _ _
  pending e he := by simp [Device.setValue, htimer] at he

/-- What the callback does once it has looked at `state`. -/
theorem Wave.keeps {periodMs dutyCycle v : UInt32} {b : Bool} {delay : Device → UInt32} {s : Device}
    (hv : v = 0 ↔ b = false)
    (hdelay : ∀ s, Wave T periodMs dutyCycle s →
      max (msecsToJiffies T (delay s)) 1 = hold T periodMs dutyCycle b)
    (htimer : s.timer = none)
    (hnext : ∀ q ∈ s.log.head?, b = !q.2 ∧ q.1 + hold T periodMs dutyCycle q.2 ≤ s.jiffies)
    (hfirst : s.log = [] → b = true) :
    (Code.act (fun s => s.setValue b) <| .act (fun s => { s with state := v }) <|
      .act (fun s => s.modTimer (msecsToJiffies T (delay s))) <| .unlock <| .ret ()).Keeps
        Undisturbed (fun _ _ => True) (Wave T periodMs dutyCycle) s := by
  simp only [Code.keeps_act, Code.keeps_unlock, Code.keeps_ret, implies_true, and_true, true_and]
  rintro t ⟨hlog, -, ht, hj⟩ hw
  refine ⟨hw.setValue (ht.trans htimer) ?_ (by rwa [hlog]), ?_⟩
  · intro q hq
    rw [hlog] at hq
    exact ⟨(hnext q hq).1, Nat.le_trans (hnext q hq).2 hj⟩
  rintro u ⟨hlog', -, ht', hj'⟩ hw'
  have hnone : u.timer = none := ht'.trans (ht.trans htimer)
  refine ⟨⟨hw'.period, hw'.duty, hw'.spaced, hw'.past, hw'.first, hw'.level, by simp [hnone]⟩, ?_⟩
  rintro x ⟨hlog'', hs'', -, hj''⟩ hw''
  refine ⟨hw''.period, hw''.duty, hw''.spaced, hw''.past, hw''.first, hw''.level,
    fun e he => ?_⟩
  -- the level last set is `b`, and the timer is set behind that
  have hhead : x.log.head? = some (t.jiffies, b) := by
    rw [hlog'']
    dsimp only
    rw [hlog']
    rfl
  obtain rfl : x.jiffies + max (msecsToJiffies T (delay x)) 1 = e := by
    simpa [Device.modTimer] using he
  have hle : t.jiffies ≤ x.jiffies := Nat.le_trans hj' hj''
  simp only [Device.modTimer, hhead, hs'', Option.mem_def, Option.some.injEq, forall_eq', hv,
    hdelay x hw'', true_and]
  exact Nat.add_le_add_right hle _

/-- Only the callback runs. -/
def wave (T : Nat) (periodMs dutyCycle : UInt32) : Contract (driver T) (∅ : Set ι) where
  inv := Wave T periodMs dutyCycle
  rely _ _ := True
  guar _ _ := True
  callbackRely := Undisturbed
  calls _ := False
  events e := e = .tick
  refl _ := ⟨trivial, rfl, rfl, rfl, Nat.le_refl _⟩
  trans _ _ _ _ _ := trivial
  callbackTrans _ _ _ h h' :=
    ⟨h'.1.trans h.1, h'.2.1.trans h.2.1, h'.2.2.1.trans h.2.2.1, Nat.le_trans h.2.2.2 h'.2.2.2⟩
  code _ h := h.elim
  callback s hs he := by
    obtain ⟨e, hte, hle⟩ : ∃ e, s.timer = some e ∧ e ≤ s.jiffies := by
      simpa [driver, Device.expired, Option.any_eq_true] using he
    obtain ⟨hstate, hdue⟩ := hs.pending e hte
    refine ⟨trivial, ⟨hs.period, hs.duty, hs.spaced, hs.past, hs.first, hs.level,
      by simp [driver]⟩, ?_⟩
    simp only [driver, pwmTimerCallback, Code.keeps_lock, Code.keeps_test]
    rintro t ⟨hlog, hs', ht, hj⟩ - u ⟨hlog', hs'', ht', hj'⟩ hu
    refine ⟨trivial, hu, ?_⟩
    have hlogu : u.log = s.log := hlog'.trans hlog
    have hstateu : u.state = s.state := hs''.trans hs'
    have hnext (q) (hq : q ∈ u.log.head?) :
        q.1 + hold T periodMs dutyCycle q.2 ≤ u.jiffies := by
      have := hdue q (hlogu ▸ hq)
      have : s.jiffies ≤ t.jiffies := hj
      omega
    split
    · rename_i h0
      rw [hstateu, hstate, ← hlogu] at h0
      refine Wave.keeps (by simp) (fun s hs => ?_) (ht'.trans ht) (fun q hq => ?_) (fun _ => rfl)
      · simp [hold, hs.period, hs.duty]
      · exact ⟨by simp [h0 q hq], hnext q hq⟩
    · rename_i h0
      rw [hstateu, hstate, ← hlogu] at h0
      obtain ⟨q, hq, hon⟩ : ∃ q ∈ u.log.head?, q.2 = true := by simpa using h0
      refine Wave.keeps (by simp) (fun s hs => ?_) (ht'.trans ht) (fun p hp => ?_) (fun hnil => ?_)
      · simp [hold, hs.period, hs.duty]
      · obtain rfl : p = q := Option.some.inj (hp.symm.trans hq)
        exact ⟨by simp [hon], hnext p hp⟩
      · simp [hnil] at hq
  event e he s hs := by
    subst he
    refine ⟨trivial, ⟨rfl, rfl, rfl, Nat.le_succ _⟩, hs.period, hs.duty, hs.spaced, fun q hq => ?_,
      hs.first, hs.level, hs.pending⟩
    exact Nat.le_trans (hs.past q hq) (Nat.le_succ _)
  others _ h := h.elim
  above _ h := h.elim

/-- **Left alone, the PWM turns the LED on and off in turn, beginning with on, keeps it on and off
for at least as long as the settings say and at least one tick, and goes on doing so for good.** -/
theorem pulses_spaced {d : Device} (hlog : d.log = []) (hstate : d.state = 0)
    (htimer : d.timer ≠ none) (h : as.foldlM (driver T).step (.idle d) = some m)
    (ha : ∀ a ∈ as, Alone a) :
    (Spaced (hold T d.periodMs d.dutyCycle) m.data.log ∧
      (∀ q ∈ m.data.log.getLast?, q.2 = true) ∧
        ∀ q ∈ m.data.log.head?, m.data.lines m.data.gpioPin = q.2) ∧
    ∀ n, ∃ (bs : List (Action ι Write Event)) (m' : Machine ι Device Int),
      bs.foldlM (driver T).step m = some m' ∧ (∀ b ∈ bs, Alone b) ∧ n ≤ turnedOn m'.data := by
  constructor
  · have hd : Wave T d.periodMs d.dutyCycle d :=
      ⟨rfl, rfl, by simp [hlog, Spaced], by simp [hlog], by simp [hlog], by simp [hlog],
        by simp [hlog, hstate]⟩
    have hm := (Contract.holds (C := wave (ι := ι) T d.periodMs d.dutyCycle)
      (Contract.holds_idle _ hd) (fun a ham => ?_) h).data
    · exact ⟨hm.spaced, hm.first, hm.level⟩
    · have := ha a ham
      cases a with
      | call j w => exact this.elim
      | event e => exact this
      | run j | expire host | callback => trivial
  · intro n
    have hm : Ticking m := invariant_foldlM_of (fun _ _ _ h ha ht => Ticking.step h ha ht) ha
      ⟨fun _ => rfl, fun _ => htimer, fun _ _ hc => by cases hc⟩ h
    obtain ⟨bs, u, hu, hbs, hlive⟩ := hm.live ((Machine.fits_idle d).run driver_orderly h)
    obtain ⟨cs, v, hv, hcs, -, hon⟩ := hlive.goes_on (T := T) n
    exact ⟨bs ++ cs, v, foldlM_append_some.mpr ⟨u, hu, hv⟩, List.forall_mem_append.mpr ⟨hbs, hcs⟩,
      hon ▸ Nat.le_add_left n _⟩

/-- The first pulse begins with the first tick; the callback has not come to its end. -/
def firstPulse : List (Action Unit Write Event) :=
  .event .tick :: .expire none :: List.replicate 4 .callback

theorem pulses_spaced_first : ∃ m : Machine Unit Device Int,
    firstPulse.foldlM (driver 4).step (.idle { defaults with timer := some 1 }) = some m ∧
    m.data.log = [(1, true)] ∧
    (Spaced (hold 4 100 50) m.data.log ∧ (∀ q ∈ m.data.log.getLast?, q.2 = true) ∧
      ∀ q ∈ m.data.log.head?, m.data.lines m.data.gpioPin = q.2) ∧
    ∀ n, ∃ (bs : List (Action Unit Write Event)) (m' : Machine Unit Device Int),
      bs.foldlM (driver 4).step m = some m' ∧ (∀ b ∈ bs, Alone b) ∧ n ≤ turnedOn m'.data := by
  obtain ⟨m, hm, hlog⟩ : ∃ m : Machine Unit Device Int,
      firstPulse.foldlM (driver 4).step (.idle { defaults with timer := some 1 }) = some m ∧
        m.data.log = [(1, true)] := ⟨_, rfl, rfl⟩
  exact ⟨m, hm, hlog, pulses_spaced (d := { defaults with timer := some 1 }) rfl rfl
    (Option.some_ne_none _) hm (by simp [firstPulse, Alone])⟩

end OSCompas.Gpio.Pwm
