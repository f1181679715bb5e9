import Mathlib.Data.Nat.Count

/-!
# Taking turns

`n` parties take turns of `S` units of time each, the party `0` first: unit `k` of the time is
served to the party `k / S % n`.

* `served S n i t` — what the party `i` has been served before the time `t`.

Principal results: `served_eq` (a closed form), `served_le_add` (no two parties are further apart
than one turn) and `served_le_first` (the first party is served most).
-/

set_option autoImplicit false

namespace OSCompas.Turns

variable {S n i j t t' : Nat}

/-- The units of time before `t` that are served to the party `i`. -/
def served (S n i t : Nat) : Nat := Nat.count (fun k => k / S % n = i) t

@[simp] theorem served_zero : served S n i 0 = 0 := Nat.count_zero _

theorem served_succ :
    served S n i (t + 1) = served S n i t + if t / S % n = i then 1 else 0 := Nat.count_succ _ _

theorem served_le : served S n i t ≤ t := Nat.count_le _

theorem served_mono (h : t ≤ t') : served S n i t ≤ served S n i t' := Nat.count_monotone _ h

/-! ## The clock -/

/-- The next unit belongs to the same turn, or is the first one of the next turn. -/
theorem clock_succ (hS : 0 < S) (t : Nat) :
    (t % S + 1 < S ∧ (t + 1) / S = t / S ∧ (t + 1) % S = t % S + 1) ∨
      (t % S + 1 = S ∧ (t + 1) / S = t / S + 1 ∧ (t + 1) % S = 0) := by
  have hlt := Nat.mod_lt t hS
  have hdiv := Nat.div_add_mod t S
  by_cases h : t % S + 1 < S
  · left
    have ht : t + 1 = S * (t / S) + (t % S + 1) := by omega
    refine ⟨h, ?_, ?_⟩
    · rw [ht, Nat.mul_add_div hS, Nat.div_eq_of_lt h]
      rfl
    · rw [ht, Nat.mul_add_mod, Nat.mod_eq_of_lt h]
  · right
    have hS' : t % S + 1 = S := by omega
    have ht : t + 1 = S * (t / S + 1) := by
      rw [Nat.mul_add]
      omega
    refine ⟨hS', ?_, ?_⟩
    · rw [ht, Nat.mul_div_cancel_left _ hS]
    · rw [ht, Nat.mul_mod_right]

/-! ## What is served -/

/-- The share of the party `i` in a round of which `c` turns and `r` units of the next are over. -/
def share (S i c r : Nat) : Nat := if i < c then S else if i = c then r else 0

theorem share_le {r : Nat} (h : r ≤ S) (c : Nat) : share S i c r ≤ S := by
  unfold share
  split
  · exact le_rfl
  · split
    · exact h
    · exact Nat.zero_le _

/-- **Full rounds, and a share of the round that goes on.** -/
theorem served_eq (hS : 0 < S) (hi : i < n) :
    served S n i t = S * (t / S / n) + share S i (t / S % n) (t % S) := by
  have hn : 0 < n := by omega
  induction t with
  | zero => simp [share]
  | succ t ih =>
    rw [served_succ, ih]
    have hc := Nat.mod_lt (t / S) hn
    rcases clock_succ hS t with ⟨-, h1, h2⟩ | ⟨hr, h1, h2⟩
    · rw [h1, h2]
      unfold share
      split_ifs <;> omega
    · rw [h1, h2]
      rcases clock_succ hn (t / S) with ⟨-, h3, h4⟩ | ⟨hlast, h3, h4⟩
      · rw [h3, h4]
        unfold share
        split_ifs <;> omega
      · rw [h3, h4, Nat.mul_add]
        unfold share
        split_ifs <;> omega

/-- **No party is ahead of another one by more than a turn.** -/
theorem served_le_add (hS : 0 < S) (hi : i < n) (hj : j < n) :
    served S n i t ≤ served S n j t + S := by
  rw [served_eq hS hi, served_eq hS hj]
  have hle := share_le (i := i) (Nat.mod_lt t hS).le (t / S % n)
  omega

/-- The first party is served most. -/
theorem served_le_first (hS : 0 < S) (hi : i < n) : served S n i t ≤ served S n 0 t := by
  have hr := Nat.mod_lt t hS
  rw [served_eq hS hi, served_eq hS (by omega : 0 < n)]
  apply Nat.add_le_add_left
  unfold share
  split_ifs <;> omega

/-- In the first turn only the first party is served. -/
theorem served_first (h : t ≤ S) : served S n 0 t = t := by
  unfold served
  rw [Nat.count_iff_forall]
  intro k hk
  rw [Nat.div_eq_of_lt (by omega), Nat.zero_mod]

theorem served_other (h : t ≤ S) (hi : i ≠ 0) : served S n i t = 0 := by
  unfold served
  rw [Nat.count_iff_forall_not]
  intro k hk
  rw [Nat.div_eq_of_lt (by omega), Nat.zero_mod]
  exact fun he => hi he.symm

end OSCompas.Turns
