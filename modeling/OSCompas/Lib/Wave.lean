import Mathlib.Algebra.Order.Ring.Rat
import Mathlib.Tactic.Linarith
import Mathlib.Tactic.NormNum

/-!
# A line over time

What a line with a pull-up will do from now on: stretches at one level, and high after the last one.
Nothing here names a program.

* `level`, `pass` — the level now, and the line a while later;
* `await` — the line at the first moment it is at a level;
* `poll` — the line at the first of `n` looks, one unit of time apart, that finds it at a level.

Principal results: `poll_stretch` and `poll_late`.
-/

set_option autoImplicit false

namespace OSCompas.Wave

/-- A stretch of time at one level. -/
structure Stretch where
  level : Bool
  time : ℚ
  deriving DecidableEq

abbrev Line := List Stretch

/-- The level now. -/
def level : Line → Bool
  | [] => true
  | s :: _ => s.level

/-- The line when the time `d` has passed. -/
def pass (d : ℚ) : Line → Line
  | [] => []
  | s :: l => if d < s.time then { s with time := s.time - d } :: l else pass (d - s.time) l

/-- The line when it next is at the level, if it ever is. -/
def await (b : Bool) : Line → Option Line
  | [] => if b then some [] else none
  | s :: l => if s.level = b then some (s :: l) else await b l

/-- `n` looks for the level, one unit of time apart. -/
def poll (b : Bool) : Nat → Line → Option Line
  | 0, _ => none
  | n + 1, l => if level l = b then some l else poll b n (pass 1 l)

variable {b : Bool} {d t u : ℚ} {n : Nat} {l : Line}

/-! ## Time passes -/

@[simp] theorem level_cons : level (⟨b, t⟩ :: l) = b := rfl

theorem pass_within (h : d < t) : pass d (⟨b, t⟩ :: l) = ⟨b, t - d⟩ :: l := by
  rw [pass, if_pos h]

theorem pass_beyond (h : t ≤ d) : pass d (⟨b, t⟩ :: l) = pass (d - t) l := by
  rw [pass, if_neg (not_lt.mpr h)]

/-! ## Waiting -/

@[simp] theorem await_at : await b (⟨b, t⟩ :: l) = some (⟨b, t⟩ :: l) := if_pos rfl

theorem poll_at : poll b (n + 1) (⟨b, t⟩ :: l) = some (⟨b, t⟩ :: l) := if_pos level_cons

/-- Looking one unit apart finds a stretch that is longer than that, and finds it less than one unit
after its beginning. -/
theorem poll_stretch (ht : 0 < t) (hn : t ≤ n) (hu : 1 < u) :
    ∃ v, u - 1 < v ∧ v ≤ u ∧ poll b (n + 1) (⟨!b, t⟩ :: ⟨b, u⟩ :: l) = some (⟨b, v⟩ :: l) := by
  induction n generalizing t with
  | zero =>
    rw [Nat.cast_zero] at hn
    linarith
  | succ n ih =>
    rw [poll, if_neg (by simp)]
    by_cases h1 : 1 < t
    · rw [pass_within h1]
      apply ih
      · linarith
      · rw [Nat.cast_succ] at hn
        linarith
    · rw [pass_beyond (not_lt.mp h1), pass_within (by linarith)]
      exact ⟨u - (1 - t), by linarith, by linarith, poll_at⟩

/-- A stretch that outlasts the looks. -/
theorem poll_late (ht : (n : ℚ) < t + 1) (hpos : 0 < t) : poll b n (⟨!b, t⟩ :: l) = none := by
  induction n generalizing t with
  | zero => rfl
  | succ n ih =>
    rw [poll, if_neg (by simp)]
    rw [Nat.cast_succ] at ht
    cases n with
    | zero => rfl
    | succ n =>
      rw [Nat.cast_succ] at ht
      have hn : (0 : ℚ) ≤ n := Nat.cast_nonneg n
      rw [pass_within (by linarith)]
      apply ih
      · rw [Nat.cast_succ]
        linarith
      · linarith

end OSCompas.Wave
