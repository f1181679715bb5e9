import Mathlib.Order.Monotone.Basic
import Mathlib.Order.Nat
import Mathlib.Tactic.Common

/-!
# A counter that counts down and reloads

A counter goes down by one at every count and from 0 to its reload value, so a period has one count
more than that value.  A reader samples it and adds up the differences, taking the reload value for
the period.  Nothing here names a program.

* `value` — the counter some counts later;
* `counted` — what the reader adds for two samples;
* `Sampling` — a counter and the times at which it is read, at most a period apart;
* `Sampling.total` — the reader's sum.

Principal results: `counted_lt` and `Sampling.total_eq_iff`.
-/

set_option autoImplicit false

namespace OSCompas.Countdown

/-- The counter `d` counts after it was `v`. -/
def value (load v : Nat) : Nat → Nat
  | 0 => v
  | d + 1 => if value load v d = 0 then load else value load v d - 1

/-- The difference of two samples; nothing when they are equal. -/
def counted (load told tnow : Nat) : Nat :=
  if tnow = told then 0 else if tnow < told then told - tnow else load - tnow + told

variable {load v d s : Nat}

theorem value_le (hv : v ≤ load) (d : Nat) : value load v d ≤ load := by
  induction d with
  | zero => exact hv
  | succ d ih =>
    rw [value]
    split <;> omega

/-- Until the counter reloads. -/
theorem value_sub (h : s ≤ value load v d) : value load v (d + s) = value load v d - s := by
  induction s with
  | zero => rfl
  | succ s ih =>
    have hs := ih (Nat.le_of_succ_le h)
    rw [← Nat.add_assoc, value, hs, if_neg (by omega)]
    omega

/-- Once it has reloaded, and before it does so again. -/
theorem value_reload (h : value load v d < s) (hs : s ≤ load + 1) :
    value load v (d + s) = load + 1 + value load v d - s := by
  have hzero : value load v (d + value load v d) = 0 := by
    rw [value_sub (le_refl _), Nat.sub_self]
  have hload : value load v (d + value load v d + 1) = load := by rw [value, if_pos hzero]
  obtain ⟨r, rfl⟩ := Nat.exists_eq_add_of_lt h
  have hsplit : d + (value load v d + r + 1) = d + value load v d + 1 + r := by omega
  rw [hsplit, value_sub (by rw [hload]; omega), hload]
  omega

/-- Without a reload between the samples the difference is right. -/
theorem counted_eq (h : s ≤ value load v d) :
    counted load (value load v d) (value load v (d + s)) = s := by
  rw [value_sub h, counted]
  split
  · omega
  · rw [if_pos (by omega)]
    omega

/-- **A reload between the samples loses counts.** -/
theorem counted_lt (h : value load v d < s) (hs : s ≤ load + 1) :
    counted load (value load v d) (value load v (d + s)) < s := by
  rw [value_reload h hs, counted]
  split
  · omega
  · rw [if_neg (by omega)]
    omega

/-- A counter that is `val` at the first sample, and the counts that have passed at each. -/
structure Sampling where
  load : Nat
  val : Nat
  elapsed : Nat → Nat
  val_le : val ≤ load
  elapsed_zero : elapsed 0 = 0
  elapsed_mono : ∀ k, elapsed k ≤ elapsed (k + 1)
  elapsed_close : ∀ k, elapsed (k + 1) ≤ elapsed k + (load + 1)

namespace Sampling

/-- The sample. -/
def sample (c : Sampling) (k : Nat) : Nat := value c.load c.val (c.elapsed k)

/-- What the reader has added up. -/
def total (c : Sampling) : Nat → Nat
  | 0 => 0
  | k + 1 => c.total k + counted c.load (c.sample k) (c.sample (k + 1))

variable {c : Sampling} {i j k : Nat}

theorem sample_le (c : Sampling) (k : Nat) : c.sample k ≤ c.load := value_le c.val_le _

theorem elapsed_le (c : Sampling) (h : i ≤ j) : c.elapsed i ≤ c.elapsed j :=
  monotone_nat_of_le_succ c.elapsed_mono h

/-- Before the first reload. -/
theorem sample_eq (h : c.elapsed k ≤ c.val) : c.sample k = c.val - c.elapsed k := by
  have hsub : value c.load c.val (0 + c.elapsed k) = c.val - c.elapsed k := value_sub h
  rwa [Nat.zero_add] at hsub

theorem counted_step (c : Sampling) (k : Nat) :
    counted c.load (c.sample k) (c.sample (k + 1)) ≤ c.elapsed (k + 1) - c.elapsed k := by
  have hmono := c.elapsed_mono k
  have hclose := c.elapsed_close k
  unfold sample
  obtain ⟨s, hs⟩ := Nat.exists_eq_add_of_le hmono
  rw [hs, Nat.add_sub_cancel_left]
  rcases Nat.lt_or_ge (value c.load c.val (c.elapsed k)) s with h | h
  · exact (counted_lt h (by omega)).le
  · exact (counted_eq h).le

/-- Nothing is lost before the first reload. -/
theorem total_eq (h : c.elapsed k ≤ c.val) : c.total k = c.elapsed k := by
  induction k with
  | zero => exact c.elapsed_zero.symm
  | succ k ih =>
    obtain ⟨s, hs⟩ := Nat.exists_eq_add_of_le (c.elapsed_mono k)
    have hk : c.elapsed k ≤ c.val := (c.elapsed_mono k).trans h
    have hsample := sample_eq hk
    have hstep : counted c.load (c.sample k) (c.sample (k + 1)) = s := by
      unfold sample at hsample ⊢
      rw [hs]
      exact counted_eq (by omega)
    rw [total, ih hk, hstep, hs]

/-- After it the sum is too small, and stays so. -/
theorem total_lt (h : c.val < c.elapsed k) : c.total k < c.elapsed k := by
  induction k with
  | zero =>
    rw [c.elapsed_zero] at h
    exact absurd h (Nat.not_lt_zero _)
  | succ k ih =>
    have hmono := c.elapsed_mono k
    rw [total]
    rcases Nat.lt_or_ge c.val (c.elapsed k) with hk | hk
    · have hstep := c.counted_step k
      have hless := ih hk
      omega
    · obtain ⟨s, hs⟩ := Nat.exists_eq_add_of_le hmono
      have hclose := c.elapsed_close k
      have hsample := sample_eq hk
      have hstep : counted c.load (c.sample k) (c.sample (k + 1)) < s := by
        unfold sample at hsample ⊢
        rw [hs]
        exact counted_lt (by omega) (by omega)
      rw [total_eq hk]
      omega

/-- **The sum is right exactly until the counter reloads.** -/
theorem total_eq_iff (c : Sampling) (k : Nat) :
    c.total k = c.elapsed k ↔ c.elapsed k ≤ c.val := by
  refine ⟨fun h => ?_, total_eq⟩
  by_contra hlate
  exact absurd h (Nat.ne_of_lt (total_lt (Nat.lt_of_not_le hlate)))

end Sampling

end OSCompas.Countdown
