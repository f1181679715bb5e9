import Mathlib.Algebra.Order.Floor.Ring
import Mathlib.Data.Int.Log
import Mathlib.Data.Rat.Floor
import Mathlib.Tactic.FieldSimp
import Mathlib.Tactic.NormNum
import OSCompas.Lib.Words

/-!
# Fields and values of awk

What awk makes of its input: lines, fields, and values that are numbers or texts by where they come
from.  Nothing here names a program.

* `double` — the nearest number of 53 binary digits;
* `decimal` — the number at the front of a text, and the rest;
* `Value` — nothing yet, a text, or a text from outside that looks like a number;
* `field`, `records` — `$n` and the lines.

Principal results: `double_natCast`, `Value.ofInput_toDigits` and `records_concat`.
-/

set_option autoImplicit false

namespace OSCompas.Awk

open OSCompas.Words

/-! ## Numbers -/

/-- The nearest whole number, the even one of two. -/
def roundEven (q : ℚ) : ℤ :=
  if q - ⌊q⌋ < 1 / 2 then ⌊q⌋
  else if 1 / 2 < q - ⌊q⌋ then ⌊q⌋ + 1
  else if Even ⌊q⌋ then ⌊q⌋ else ⌊q⌋ + 1

/-- The last binary digit of 53. -/
def ulp (q : ℚ) : ℚ := 2 ^ (Int.log 2 |q| - 52)

/-- The nearest number of 53 binary digits (with every exponent). -/
def double (q : ℚ) : ℚ := roundEven (q / ulp q) * ulp q

theorem roundEven_intCast (z : ℤ) : roundEven z = z := by
  simp [roundEven]

theorem roundEven_natCast (n : ℕ) : roundEven n = n := by
  exact_mod_cast roundEven_intCast n

/-- Whole numbers of up to 53 binary digits are their own. -/
theorem double_natCast {n : ℕ} (h : n < 2 ^ 53) : double n = n := by
  have hlog : Nat.log 2 n ≤ 52 := by
    have := Nat.log_lt_of_lt_pow' (b := 2) (by decide) h
    omega
  obtain ⟨k, hk⟩ : ∃ k, 52 = Nat.log 2 n + k := ⟨52 - Nat.log 2 n, by omega⟩
  have hulp : ulp n = ((2 ^ k : ℕ) : ℚ)⁻¹ := by
    have hexp : (Nat.log 2 n : ℤ) - 52 = -(k : ℤ) := by omega
    rw [ulp, Nat.abs_cast, Int.log_natCast, hexp, zpow_neg, zpow_natCast]
    norm_cast
  have hpos : ((2 ^ k : ℕ) : ℚ) ≠ 0 := by positivity
  have hdiv : (n : ℚ) / ulp n = ((n * 2 ^ k : ℕ) : ℚ) := by
    rw [hulp, div_inv_eq_mul]
    norm_cast
  rw [double, hdiv, roundEven_natCast, hulp]
  push_cast at hpos ⊢
  field_simp

/-- What stands between fields. -/
def blank (c : Char) : Bool := c = ' ' ∨ c = '\t' ∨ c = '\n'

/-- A minus in front or not, and what follows. -/
def sign : List Char → Bool × List Char
  | '-' :: t => (true, t)
  | '+' :: t => (false, t)
  | t => (false, t)

/-- The digits after a point. -/
def fraction : List Char → List Char × List Char
  | '.' :: t => (t.takeWhile Char.isDigit, t.dropWhile Char.isDigit)
  | t => ([], t)

/-- The power of ten: an `e` that no digit follows is none. -/
def exponent (t : List Char) : ℤ × List Char :=
  match t with
  | [] => (0, [])
  | e :: u =>
    let (neg, u) := sign u
    let ds := u.takeWhile Char.isDigit
    if (e = 'e' ∨ e = 'E') ∧ ds ≠ [] then
      let x : ℤ := Nat.ofDigitChars 10 ds 0
      (if neg then -x else x, u.dropWhile Char.isDigit)
    else (0, t)

/-- The decimal number at the front of a text, and what follows it. -/
def decimal (t : List Char) : Option (ℚ × List Char) :=
  let (neg, t) := sign (t.dropWhile blank)
  let whole := t.takeWhile Char.isDigit
  let (frac, t) := fraction (t.dropWhile Char.isDigit)
  if whole = [] ∧ frac = [] then none
  else
    let (x, t) := exponent t
    let q : ℚ := Nat.ofDigitChars 10 (whole ++ frac) 0 * 10 ^ (x - frac.length)
    some (if neg then -q else q, t)

theorem sign_of_isDigit {c : Char} {t : List Char} (hc : c.isDigit) :
    sign (c :: t) = (false, c :: t) := by
  unfold sign
  split
  · simp_all
  · simp_all
  · rfl

theorem blank_of_isDigit {c : Char} (hc : c.isDigit) : blank c = false := by
  simp only [blank, decide_eq_false_iff_not]
  rintro (rfl | rfl | rfl) <;> exact absurd hc (by decide)

theorem solid_toDigits (n : ℕ) : Solid blank (Nat.toDigits 10 n) :=
  ⟨Nat.toDigits_ne_nil, fun _ hc =>
    blank_of_isDigit (Nat.isDigit_of_mem_toDigits (by decide) (by decide) hc)⟩

/-- Different numbers are written differently. -/
theorem toDigits_injective : Function.Injective (Nat.toDigits 10) := fun m n h => by
  have hvalue := congrArg (Nat.ofDigitChars 10 · 0) h
  simpa only [Nat.ofDigitChars_ten_toDigits] using hvalue

/-- A number as it is written is read back. -/
theorem decimal_toDigits (n : ℕ) : decimal (Nat.toDigits 10 n) = some ((n : ℚ), []) := by
  have hdigits : ∀ c ∈ Nat.toDigits 10 n, c.isDigit = true :=
    fun c hc => Nat.isDigit_of_mem_toDigits (by decide) (by decide) hc
  have htake : (Nat.toDigits 10 n).takeWhile Char.isDigit = Nat.toDigits 10 n :=
    List.takeWhile_eq_self_iff.mpr hdigits
  have hdrop : (Nat.toDigits 10 n).dropWhile Char.isDigit = [] :=
    List.dropWhile_eq_nil_iff.mpr hdigits
  have hsign : sign ((Nat.toDigits 10 n).dropWhile blank) = (false, Nat.toDigits 10 n) := by
    obtain ⟨c, t, ht⟩ := List.exists_cons_of_ne_nil (Nat.toDigits_ne_nil (n := n) (b := 10))
    have hc : c.isDigit = true := hdigits c (by rw [ht]; exact List.mem_cons_self)
    rw [ht, List.dropWhile_cons_of_neg (by rw [blank_of_isDigit hc]; decide), sign_of_isDigit hc]
  simp only [decimal, hsign, htake, hdrop, fraction, exponent]
  rw [if_neg (fun h => Nat.toDigits_ne_nil h.1)]
  simp [Nat.ofDigitChars_ten_toDigits]

/-! ## Values -/

/-- A value: a text from outside that looks like a number is both. -/
inductive Value
  | uninit
  | str (s : List Char)
  | strnum (s : List Char)
  deriving DecidableEq

namespace Value

/-- A text from outside. -/
def ofInput (s : List Char) : Value :=
  match decimal s with
  | some (_, rest) => if rest.all blank then strnum s else str s
  | none => str s

def text : Value → List Char
  | uninit => []
  | str s | strnum s => s

/-- The number at the front of the text, 0 if there is none. -/
def number (v : Value) : ℚ :=
  match decimal v.text with
  | some (q, _) => double q
  | none => 0

/-- `==`: of texts if either side is nothing but a text, else of numbers. -/
def eq : Value → Value → Bool
  | str s, w => s = w.text
  | v, str s => v.text = s
  | v, w => v.number = w.number

theorem ofInput_toDigits (n : ℕ) : ofInput (Nat.toDigits 10 n) = strnum (Nat.toDigits 10 n) := by
  simp [ofInput, decimal_toDigits]

@[simp] theorem text_ofInput (s : List Char) : (ofInput s).text = s := by
  unfold ofInput
  split
  · split <;> rfl
  · rfl

@[simp] theorem number_uninit : uninit.number = 0 := rfl

theorem number_eq_of_text {v : Value} {n : ℕ} (h : v.text = Nat.toDigits 10 n) (hn : n < 2 ^ 53) :
    v.number = n := by
  simp only [number, h, decimal_toDigits, double_natCast hn]

end Value

/-! ## Lines and fields -/

/-- The lines of a text: an end of line at its end starts no further one. -/
def records (t : List Char) : List (List Char) :=
  let ls := t.splitOn '\n'
  if ls.getLast? = some [] then ls.dropLast else ls

/-- `$0` is the line, `$n` its n-th word. -/
def field (line : List Char) : ℕ → Value
  | 0 => .ofInput line
  | n + 1 =>
    match (words blank line)[n]? with
    | some s => .ofInput s
    | none => .uninit

theorem splitOnP_newline {line : List Char} (h : '\n' ∉ line) :
    line.splitOnP (· == '\n') = [line] := by
  refine List.splitOnP_eq_singleton fun c hc => ?_
  rw [beq_eq_false_iff_ne]
  rintro rfl
  exact h hc

/-- The line in front of an end of line. -/
theorem takeWhile_newline {line : List Char} (h : '\n' ∉ line) (t : List Char) :
    (line ++ '\n' :: t).takeWhile (· ≠ '\n') = line := by
  rw [List.takeWhile_append_of_pos fun c hc => by
    simpa using fun heq : c = '\n' => h (heq ▸ hc)]
  simp

/-- One line and its end are one line. -/
theorem records_concat {line : List Char} (h : '\n' ∉ line) :
    records (line ++ ['\n']) = [line] := by
  have hsplit : (line ++ ['\n']).splitOn '\n' = [line, []] := by
    rw [List.splitOn, List.splitOnP_append_cons _ _ (by decide), splitOnP_newline h]
    rfl
  rw [records, hsplit]
  rfl

/-- The first line goes up to the first end of line. -/
theorem head_records {t : List Char} (h : t ≠ []) :
    (records t).head? = some (t.takeWhile (· ≠ '\n')) := by
  by_cases hmem : '\n' ∈ t
  · obtain ⟨a, b, rfl, ha⟩ := List.eq_append_cons_of_mem hmem
    have hfirst : (a ++ '\n' :: b).splitOn '\n' = a :: b.splitOn '\n' := by
      rw [List.splitOn, List.splitOnP_append_cons _ _ (by decide), splitOnP_newline ha]
      rfl
    obtain ⟨l, ls, hrest⟩ : ∃ l ls, b.splitOn '\n' = l :: ls :=
      List.exists_cons_of_ne_nil (List.splitOnP_ne_nil _ b)
    rw [records, hfirst, hrest, takeWhile_newline ha b]
    split <;> rfl
  · have hwhole : t.splitOn '\n' = [t] := splitOnP_newline hmem
    have htake : t.takeWhile (· ≠ '\n') = t :=
      List.takeWhile_eq_self_iff.mpr fun c hc => by
        simpa using fun heq : c = '\n' => hmem (heq ▸ hc)
    rw [records, hwhole, htake, if_neg (by simpa using h)]
    rfl

theorem text_field {line s : List Char} {n : ℕ} (h : (words blank line)[n]? = some s) :
    (field line (n + 1)).text = s := by
  simp [field, h]

end OSCompas.Awk
