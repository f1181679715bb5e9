import Mathlib.Data.Nat.Digits.Defs
import Mathlib.Tactic.Common

/-!
# Writing a number from its last digit

The loop that writes the digits of a number backwards into a small buffer, once for 0.  Nothing here
names a program.

* `fill` — the loop, with so much room in the buffer;
* `digit_of_mem` — what is a digit.

Principal result: `fill_eq`.
-/

set_option autoImplicit false

namespace OSCompas.Digits

/-- `do { *--p = digit(n % b); n /= b; } while (n > 0);` in front of `acc`. -/
def fill (digit : Nat → Char) (b : Nat) : Nat → Nat → List Char → List Char
  | 0, _, acc => acc
  | room + 1, n, acc =>
    if 0 < n / b then fill digit b room (n / b) (digit (n % b) :: acc) else digit (n % b) :: acc

variable {digit : Nat → Char} {b n room : Nat} {acc : List Char} {c : Char}

/-- **With room enough the loop writes the digits.** -/
theorem fill_eq (hb : 1 < b) (hdigit : ∀ d < b, digit d = Nat.digitChar d) (hn : n < b ^ room)
    (hroom : 0 < room) : fill digit b room n acc = Nat.toDigits b n ++ acc := by
  induction room generalizing n acc with
  | zero => omega
  | succ room ih =>
    have hlast := hdigit (n % b) (Nat.mod_lt n (by omega))
    rw [fill, Nat.toDigits_eq_if hb]
    by_cases hlt : n < b
    · rw [if_neg (by rw [Nat.div_eq_of_lt hlt]; omega), if_pos hlt, hlast, Nat.mod_eq_of_lt hlt]
      rfl
    · have hdiv : 0 < n / b := Nat.div_pos (by omega) (by omega)
      have hsmall : n / b < b ^ room := by
        rw [Nat.div_lt_iff_lt_mul (by omega), ← Nat.pow_succ]
        exact hn
      have hroom' : 0 < room := by
        rcases Nat.eq_zero_or_pos room with rfl | hpos
        · rw [Nat.pow_zero] at hsmall
          omega
        · exact hpos
      rw [if_pos hdiv, if_neg hlt, ih hsmall hroom', hlast, List.append_assoc]
      rfl

/-- The first digit. -/
theorem toDigits_eq_cons (b n : Nat) : ∃ c ds, Nat.toDigits b n = c :: ds :=
  List.exists_cons_of_ne_nil Nat.toDigits_ne_nil

/-- Every character written is a digit. -/
theorem digit_of_mem (hb : 1 < b) (h : c ∈ Nat.toDigits b n) : ∃ d < b, c = Nat.digitChar d := by
  induction n using Nat.strongRecOn with
  | ind n ih =>
    rw [Nat.toDigits_eq_if hb] at h
    split at h
    · rename_i hlt
      exact ⟨n, hlt, List.mem_singleton.mp h⟩
    · rename_i hge
      rcases List.mem_append.mp h with h | h
      · exact ih _ (Nat.div_lt_self (by omega) hb) h
      · exact ⟨n % b, Nat.mod_lt n (by omega), List.mem_singleton.mp h⟩

end OSCompas.Digits
