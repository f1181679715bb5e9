import Mathlib.Data.UInt
import Mathlib.Tactic.Ring

/-!
# Numbers as bytes

Two ways of writing a number as bytes, and a text of known length.  Nothing here names a program.

* `encode`, `decode` — seven bits a byte, lowest first, the top bit set on every byte but the last;
* `be16` — two bytes, high byte first;
* `cut` — the first `n` bytes and the rest, if there are so many.

Principal results: `decode_encode` and `cut_append`.
-/

set_option autoImplicit false

namespace OSCompas.Varint

theorem toNat_ofNat {n : Nat} (h : n < 256) : (UInt8.ofNat n).toNat = n := by
  rw [UInt8.toNat_ofNat', Nat.mod_eq_of_lt h]

/-! ## Base 128 -/

def encode (n : Nat) : List UInt8 :=
  if n < 128 then [UInt8.ofNat n] else UInt8.ofNat (n % 128 + 128) :: encode (n / 128)

/-- The number at the head of the text, written in at most `k` bytes, and what follows it. -/
def decode : Nat → List UInt8 → Option (Nat × List UInt8)
  | 0, _ => none
  | _ + 1, [] => none
  | k + 1, b :: l =>
    if b.toNat < 128 then some (b.toNat, l)
    else (decode k l).map fun q => (b.toNat - 128 + 128 * q.1, q.2)

variable {k n : Nat} {b : UInt8} {l rest : List UInt8}

theorem encode_of_lt (h : n < 128) : encode n = [UInt8.ofNat n] := by
  rw [encode, if_pos h]

theorem encode_of_not_lt (h : ¬ n < 128) :
    encode n = UInt8.ofNat (n % 128 + 128) :: encode (n / 128) := by
  rw [encode, if_neg h]

theorem decode_last (h : b.toNat < 128) : decode (k + 1) (b :: l) = some (b.toNat, l) := if_pos h

theorem decode_more (h : ¬ b.toNat < 128) :
    decode (k + 1) (b :: l) = (decode k l).map fun q => (b.toNat - 128 + 128 * q.1, q.2) :=
  if_neg h

/-- **What was written is read back**, and nothing after it is touched. -/
theorem decode_encode (h : n < 128 ^ (k + 1)) (rest : List UInt8) :
    decode (k + 1) (encode n ++ rest) = some (n, rest) := by
  induction k generalizing n with
  | zero =>
    have hn : n < 128 := by simpa using h
    rw [encode_of_lt hn, List.singleton_append,
      decode_last (by rw [toNat_ofNat (by omega)]; exact hn), toNat_ofNat (by omega)]
  | succ k ih =>
    by_cases hn : n < 128
    · rw [encode_of_lt hn, List.singleton_append,
        decode_last (by rw [toNat_ofNat (by omega)]; exact hn), toNat_ofNat (by omega)]
    · have hbyte : (UInt8.ofNat (n % 128 + 128)).toNat = n % 128 + 128 := toNat_ofNat (by omega)
      have hdiv : n / 128 < 128 ^ (k + 1) := by
        rw [Nat.div_lt_iff_lt_mul (by decide), ← Nat.pow_succ]
        exact h
      rw [encode_of_not_lt hn, List.cons_append, decode_more (by omega), ih hdiv, hbyte]
      simp only [Option.map_some, Option.some.injEq, Prod.mk.injEq, and_true]
      omega

/-! ## Sixteen bits -/

/-- Two bytes, high byte first. -/
def be16 (n : Nat) : List UInt8 := [UInt8.ofNat (n / 256), UInt8.ofNat (n % 256)]

theorem be16_value (h : n < 65536) :
    256 * (UInt8.ofNat (n / 256)).toNat + (UInt8.ofNat (n % 256)).toNat = n := by
  rw [toNat_ofNat (by omega), toNat_ofNat (by omega)]
  omega

@[simp] theorem be16_length (n : Nat) : (be16 n).length = 2 := rfl

/-! ## Texts of known length -/

/-- The first `n` bytes and the rest. -/
def cut (n : Nat) (l : List UInt8) : Option (List UInt8 × List UInt8) :=
  if n ≤ l.length then some (l.take n, l.drop n) else none

theorem cut_append (l rest : List UInt8) : cut l.length (l ++ rest) = some (l, rest) := by
  unfold cut
  rw [if_pos (by simp), List.take_left, List.drop_left]

theorem cut_length {p : List UInt8 × List UInt8} (h : cut n l = some p) :
    p.1.length = n ∧ p.2.length + n = l.length := by
  unfold cut at h
  split at h
  · cases h
    simp only [List.length_take, List.length_drop]
    omega
  · cases h

end OSCompas.Varint
