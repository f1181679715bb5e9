import OSCompas.Lib.Holdings

/-!
# The GPIO driver (`lab5-1-raspberry-gpio-driver/src/gpio_led.c`)

* `Kernel` — what the kernel answers to each call of `gpio_led_init`;
* `Params`, `ParamWrite` — the module parameters, and writes to them while the driver is loaded;
* `gpioLedInit`, `gpioLedExit` — the code, with what it takes, drives and gives back;
* `Balanced` — nothing is left behind, and nothing is driven or given back that is not held;
* `Loads`, `TakesButton` — the answers with which the driver loads, and with which it holds the
  button's GPIO.

`gpio_led_exit` reads both parameters again.

Principal results: `gpioLedInit_fails`, `gpioLedInit_loads`, `gpioLedExit_iff` and
`gpio_balanced_iff`.
-/

set_option autoImplicit false

namespace OSCompas.Gpio

open Holdings

/-! ## The kernel -/

inductive Resource where
  | region
  | cls
  | device
  | cdev
  | gpio (pin : Int)
  deriving DecidableEq, Repr

/-- An error code of the kernel. -/
structure Errno where
  code : Int
  neg : code < 0
  deriving DecidableEq

/-- What a call returns: an error, or 0. -/
def ret : Option Errno → Int
  | none => 0
  | some e => e.code

/-- The outcomes of the calls. -/
structure Kernel where
  allocChrdevRegion : Option Errno
  classCreate : Option Errno
  deviceCreate : Option Errno
  cdevAdd : Option Errno
  gpioIsValid : Int → Bool
  requestLed : Option Errno
  directionOutput : Option Errno
  requestButton : Option Errno
  directionInput : Option Errno

/-- The module parameters. -/
structure Params where
  gpioPin : Int
  useButton : Int
  deriving DecidableEq, Repr

/-- A write to a file under `/sys/module`. -/
inductive ParamWrite where
  | gpioPin (v : Int)
  | useButton (v : Int)
  deriving DecidableEq, Repr

def Params.write (p : Params) : ParamWrite → Params
  | .gpioPin v => { p with gpioPin := v }
  | .useButton v => { p with useButton := v }

def Params.writes (p : Params) (ws : List ParamWrite) : Params := ws.foldl Params.write p

/-! ## The code -/

def GPIO_LED_PIN : Int := 17

def GPIO_BUTTON_PIN : Int := 27

def EINVAL : Int := 22

/-- Giving back, one after the other. -/
def releases (rs : List Resource) : List (Event Resource) := rs.map .release

/-- What follows `error:`. -/
def errorPath : List (Event Resource) := releases [.cdev, .device, .cls, .region]

/-- Step 7 of `gpio_led_init`; it never fails. -/
def initButton (k : Kernel) (p : Params) : List (Event Resource) :=
  if p.useButton ≠ 0 then
    if ¬ k.gpioIsValid GPIO_BUTTON_PIN then []
    else if ret k.requestButton ≠ 0 then []
    else
      let log := [.acquire (.gpio GPIO_BUTTON_PIN), .use (.gpio GPIO_BUTTON_PIN)]
      if ret k.directionInput ≠ 0 then log ++ releases [.gpio GPIO_BUTTON_PIN] else log
  else []

/-- `gpio_led_init`: what it returns, and what it does. -/
def gpioLedInit (k : Kernel) (p : Params) : Int × List (Event Resource) :=
  if ret k.allocChrdevRegion < 0 then (ret k.allocChrdevRegion, [])
  else
    let log : List (Event Resource) := [.acquire .region]
    if k.classCreate.isSome then (ret k.classCreate, log ++ releases [.region])
    else
      let log : List (Event Resource) := log ++ [.acquire .cls]
      if k.deviceCreate.isSome then
        (ret k.deviceCreate, log ++ releases [.cls, .region])
      else
        let log : List (Event Resource) := log ++ [.acquire .device]
        if ret k.cdevAdd < 0 then
          (ret k.cdevAdd, log ++ releases [.device, .cls, .region])
        else
          let log : List (Event Resource) := log ++ [.acquire .cdev]
          if ¬ k.gpioIsValid p.gpioPin then (-EINVAL, log ++ errorPath)
          else if ret k.requestLed ≠ 0 then (ret k.requestLed, log ++ errorPath)
          else
            let log : List (Event Resource) :=
              log ++ [.acquire (.gpio p.gpioPin), .use (.gpio p.gpioPin)]
            if ret k.directionOutput ≠ 0 then
              (ret k.directionOutput, log ++ releases [.gpio p.gpioPin] ++ errorPath)
            else (0, log ++ initButton k p)

/-- `gpio_led_exit`. -/
def gpioLedExit (p : Params) : List (Event Resource) :=
  .use (.gpio p.gpioPin) :: (releases [.gpio p.gpioPin] ++
    ((if p.useButton ≠ 0 then releases [.gpio GPIO_BUTTON_PIN] else []) ++
      releases [.cdev, .device, .cls, .region]))

/-! ## What is asked of it -/

/-- A failing `gpio_led_init` has given back all it took, and after a successful one `gpio_led_exit`
gives it back; neither uses nor gives back what is not held. -/
def Balanced (k : Kernel) (p : Params) (ws : List ParamWrite) : Prop :=
  ((gpioLedInit k p).1 ≠ 0 → run [] (gpioLedInit k p).2 = some []) ∧
    ((gpioLedInit k p).1 = 0 →
      run [] ((gpioLedInit k p).2 ++ gpioLedExit (p.writes ws)) = some [])

/-- Every call that must succeed does. -/
def Loads (k : Kernel) (p : Params) : Prop :=
  k.allocChrdevRegion = none ∧ k.classCreate = none ∧ k.deviceCreate = none ∧ k.cdevAdd = none ∧
    k.gpioIsValid p.gpioPin = true ∧ k.requestLed = none ∧ k.directionOutput = none

/-- The button is asked for, and its calls succeed. -/
def TakesButton (k : Kernel) (p : Params) : Prop :=
  p.useButton ≠ 0 ∧ k.gpioIsValid GPIO_BUTTON_PIN = true ∧ k.requestButton = none ∧
    k.directionInput = none

instance (k : Kernel) (p : Params) : Decidable (TakesButton k p) :=
  inferInstanceAs (Decidable (_ ∧ _))

/-! ## Loading -/

variable {k : Kernel} {p : Params} {r : Option Errno}

theorem ret_eq_zero_iff : ret r = 0 ↔ r = none := by
  cases r with
  | none => exact iff_of_true rfl rfl
  | some e => exact iff_of_false (Int.ne_of_lt e.neg) (by simp)

theorem ret_lt_zero_iff : ret r < 0 ↔ r ≠ none := by
  cases r with
  | none => exact iff_of_false (Int.lt_irrefl 0) (by simp)
  | some e => exact iff_of_true e.neg (by simp)

theorem ret_ne_zero_of_isSome (h : r.isSome = true) : ret r ≠ 0 := by
  rw [Ne, ret_eq_zero_iff]
  rintro rfl
  cases h

/-- The four resources behind the character device. -/
def base : List Resource := [.cdev, .device, .cls, .region]

/-- What is done up to step 5. -/
def taken : List (Event Resource) :=
  [.acquire .region, .acquire .cls, .acquire .device, .acquire .cdev]

theorem run_taken : run [] taken = some base :=
  run_map_acquire [] [Resource.region, .cls, .device, .cdev]

theorem run_taken_append (es : List (Event Resource)) : run [] (taken ++ es) = run base es := by
  rw [run_append, run_taken, Option.bind_some]

/-- The button's GPIO, if it is held. -/
def buttonGpio (button : Prop) [Decidable button] : List Resource :=
  if button then [.gpio GPIO_BUTTON_PIN] else []

/-- What is held once the driver is loaded. -/
def held (k : Kernel) (p : Params) : List Resource :=
  buttonGpio (TakesButton k p) ++ .gpio p.gpioPin :: base

theorem run_initButton (k : Kernel) (p : Params) (rs : List Resource) :
    run rs (initButton k p) = some (buttonGpio (TakesButton k p) ++ rs) := by
  unfold initButton buttonGpio TakesButton
  by_cases hu : p.useButton ≠ 0
  · rw [if_pos hu]
    by_cases hv : k.gpioIsValid GPIO_BUTTON_PIN = true
    · rw [if_neg (not_not.mpr hv)]
      by_cases hr : k.requestButton = none
      · rw [if_neg (not_not.mpr (ret_eq_zero_iff.mpr hr))]
        by_cases hd : k.directionInput = none
        · simp [ret_eq_zero_iff, hu, hv, hr, hd, run, Event.step]
        · simp [ret_eq_zero_iff, hd, releases, run, Event.step]
      · simp [ret_eq_zero_iff, hr]
    · simp [hv]
  · simp [hu]

/-- **A `gpio_led_init` that fails leaves nothing behind.** -/
theorem gpioLedInit_fails (h : ¬ Loads k p) :
    (gpioLedInit k p).1 ≠ 0 ∧ run [] (gpioLedInit k p).2 = some [] := by
  unfold gpioLedInit
  split
  · rename_i h₁
    exact ⟨Int.ne_of_lt h₁, rfl⟩
  · rename_i h₁
    dsimp only
    split
    · rename_i h₂
      exact ⟨ret_ne_zero_of_isSome h₂, run_undo [] [Resource.region]⟩
    · rename_i h₂
      split
      · rename_i h₃
        exact ⟨ret_ne_zero_of_isSome h₃, run_undo [] [Resource.region, .cls]⟩
      · rename_i h₃
        split
        · rename_i h₄
          exact ⟨Int.ne_of_lt h₄, run_undo [] [Resource.region, .cls, .device]⟩
        · rename_i h₄
          split
          · exact ⟨by decide, run_undo [] [Resource.region, .cls, .device, .cdev]⟩
          · rename_i h₅
            split
            · rename_i h₆
              exact ⟨h₆, run_undo [] [Resource.region, .cls, .device, .cdev]⟩
            · rename_i h₆
              split
              · rename_i h₇
                refine ⟨h₇, ?_⟩
                refine (run_taken_append (.acquire _ :: .use _ :: .release _ :: errorPath)).trans ?_
                rw [run_acquire, run_use_of_mem List.mem_cons_self,
                  run_release_of_mem List.mem_cons_self, List.erase_cons_head]
                exact run_map_release [] base
              · rename_i h₇
                refine absurd ?_ h
                rw [ret_lt_zero_iff, not_not] at h₁ h₄
                rw [not_not, ret_eq_zero_iff] at h₆ h₇
                rw [Option.not_isSome_iff_eq_none] at h₂ h₃
                exact ⟨h₁, h₂, h₃, h₄, not_not.mp h₅, h₆, h₇⟩

/-- **A `gpio_led_init` that succeeds holds the character device, its GPIO, and the button's if it
could be had.** -/
theorem gpioLedInit_loads (h : Loads k p) :
    (gpioLedInit k p).1 = 0 ∧ run [] (gpioLedInit k p).2 = some (held k p) := by
  obtain ⟨h₁, h₂, h₃, h₄, h₅, h₆, h₇⟩ := h
  have hinit : gpioLedInit k p =
      (0, taken ++ (.acquire (.gpio p.gpioPin) :: .use (.gpio p.gpioPin) :: initButton k p)) := by
    simp [gpioLedInit, taken, h₁, h₂, h₃, h₄, h₅, h₆, h₇, ret]
  rw [hinit]
  refine ⟨rfl, ?_⟩
  rw [run_taken_append, run_acquire, run_use_of_mem List.mem_cons_self]
  exact run_initButton k p _

theorem gpioLedInit_eq_zero_iff : (gpioLedInit k p).1 = 0 ↔ Loads k p := by
  refine ⟨fun h => ?_, fun h => (gpioLedInit_loads h).1⟩
  by_contra hno
  exact (gpioLedInit_fails hno).1 h

/-! ## Unloading -/

/-- What `gpio_led_exit` gives back. -/
def given (p : Params) : List Resource :=
  .gpio p.gpioPin :: (buttonGpio (p.useButton ≠ 0) ++ base)

theorem gpioLedExit_eq (p : Params) :
    gpioLedExit p = .use (.gpio p.gpioPin) :: (given p).map .release := by
  unfold gpioLedExit given buttonGpio
  split <;> rfl

/-- **`gpio_led_exit` is right exactly when it gives back what is held.** -/
theorem gpioLedExit_iff (rs : List Resource) (p : Params) :
    run rs (gpioLedExit p) = some [] ↔ (given p).Perm rs := by
  rw [gpioLedExit_eq]
  by_cases h : .gpio p.gpioPin ∈ rs
  · rw [run_use_of_mem h, run_release_iff]
  · rw [run_use_of_not_mem h]
    refine iff_of_false (by simp) fun hperm => h ?_
    exact hperm.subset List.mem_cons_self

theorem gpio_perm_iff (a b : Int) :
    (.gpio a :: base : List Resource).Perm (.gpio b :: base) ↔ a = b := by
  constructor
  · intro h
    have hmem : .gpio a ∈ (.gpio b :: base : List Resource) := h.subset List.mem_cons_self
    simpa [base] using hmem
  · rintro rfl
    exact .rfl

/-- It does when the pin is the same and the button is asked for as it was taken. -/
theorem given_perm_held_iff (p p' : Params) :
    (given p').Perm (held k p) ↔
      p'.gpioPin = p.gpioPin ∧ (p'.useButton ≠ 0 ↔ TakesButton k p) := by
  unfold given held buttonGpio
  by_cases hu : p'.useButton ≠ 0
  · by_cases ht : TakesButton k p
    · rw [if_pos hu, if_pos ht, List.singleton_append, List.singleton_append,
        (List.Perm.swap _ _ _).congr_left, List.perm_cons, gpio_perm_iff]
      exact (and_iff_left (iff_of_true hu ht)).symm
    · rw [if_pos hu, if_neg ht]
      refine iff_of_false (fun h => ?_) fun h => ht (h.2.mp hu)
      exact absurd h.length_eq (by simp)
  · by_cases ht : TakesButton k p
    · rw [if_neg hu, if_pos ht]
      refine iff_of_false (fun h => ?_) fun h => hu (h.2.mpr ht)
      exact absurd h.length_eq (by simp)
    · rw [if_neg hu, if_neg ht, List.nil_append, List.nil_append, gpio_perm_iff]
      exact (and_iff_left (iff_of_false hu ht)).symm

/-- **The driver is balanced exactly when it fails to load, or is unloaded with the pin it was
loaded with and with the button asked for exactly if it was taken.** -/
theorem gpio_balanced_iff (k : Kernel) (p : Params) (ws : List ParamWrite) :
    Balanced k p ws ↔
      ¬ Loads k p ∨
        ((p.writes ws).gpioPin = p.gpioPin ∧
          ((p.writes ws).useButton ≠ 0 ↔ TakesButton k p)) := by
  unfold Balanced
  by_cases h : Loads k p
  · obtain ⟨hret, hrun⟩ := gpioLedInit_loads h
    rw [run_append, hrun, Option.bind_some, gpioLedExit_iff, given_perm_held_iff]
    simp [hret, h]
  · obtain ⟨hret, hrun⟩ := gpioLedInit_fails h
    simp [hret, hrun, h]

/-- Every call succeeds, but perhaps the request for the button. -/
def answers (requestButton : Option Errno) : Kernel where
  allocChrdevRegion := none
  classCreate := none
  deviceCreate := none
  cdevAdd := none
  gpioIsValid _ := true
  requestLed := none
  directionOutput := none
  requestButton := requestButton
  directionInput := none

/-- Another pin while the driver is loaded; the button asked for while it is; a button that could
not be had. -/
theorem gpio_unbalanced :
    ¬ Balanced (answers none) ⟨GPIO_LED_PIN, 0⟩ [.gpioPin 18] ∧
    ¬ Balanced (answers none) ⟨GPIO_LED_PIN, 0⟩ [.useButton 1] ∧
    ¬ Balanced (answers (some ⟨-16, by decide⟩)) ⟨GPIO_LED_PIN, 1⟩ [] := by
  refine ⟨fun h => ?_, fun h => ?_, fun h => ?_⟩
  · exact absurd (h.2 rfl) (by decide)
  · exact absurd (h.2 rfl) (by decide)
  · exact absurd (h.2 rfl) (by decide)

end OSCompas.Gpio
