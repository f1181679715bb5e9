import OSCompas.Lib.Digits
import Mathlib.Data.List.Induction
import Mathlib.Logic.Function.Basic

/-!
# Filling an array from its end

A text that is written into an array from the back, in front of its zero.  Nothing here names a
program.

* `Backfill`, `Backfill.push` — the array with the index of the first character, and one more;
* `Backfill.text` — the string that begins there;
* `drain`, `pad` — the digits of a number while there is room, and padding;
* `digitValue`, `read` — digits as a number.

Principal results: `Holds.drain`, `Holds.pad` and `read_toDigits`.
-/

set_option autoImplicit false

namespace OSCompas

open Digits Function

/-- An array, the index of the first character of the text, and the indices written so far. -/
structure Backfill where
  cells : Int → Char
  pos : Int
  written : List Int

namespace Backfill

/-- `pos = last; a[pos] = '\0';` -/
def start (cells : Int → Char) (last : Int) : Backfill :=
  ⟨update cells last '\x00', last, [last]⟩

/-- `a[--pos] = c;` -/
def push (b : Backfill) (c : Char) : Backfill :=
  ⟨update b.cells (b.pos - 1) c, b.pos - 1, (b.pos - 1) :: b.written⟩

/-- The string `&a[pos]`, looked for in `size` places. -/
def text (size : Nat) (b : Backfill) : List Char :=
  ((List.range size).map fun i : Nat => b.cells (b.pos + i)).takeWhile (· ≠ '\x00')

/-- `while (n > 0 && pos > 0) { a[--pos] = digit(n % base); n /= base; }` -/
def drain (digit : Nat → Char) (base n : Nat) (b : Backfill) : Backfill :=
  if 0 < n ∧ 0 < b.pos then drain digit base (n / base) (b.push (digit (n % base))) else b
termination_by b.pos.toNat
decreasing_by
  simp only [push]
  omega

/-- `while (more(pos) && pos > 0) a[--pos] = c;` -/
def pad (more : Int → Bool) (c : Char) (b : Backfill) : Backfill :=
  if more b.pos ∧ 0 < b.pos then pad more c (b.push c) else b
termination_by b.pos.toNat
decreasing_by
  simp only [push]
  omega

variable {b : Backfill} {c : Char} {cs : List Char} {last : Nat} {base n : Nat}
  {digit : Nat → Char} {more : Int → Bool}

/-! ## What the array holds -/

/-- The text `cs` and its zero end at `last`, and only they have been written. -/
structure Holds (last : Nat) (cs : List Char) (b : Backfill) : Prop where
  pos : b.pos + cs.length = last
  cells : ∀ i : Nat, (h : i < cs.length) → b.cells (b.pos + i) = cs[i]
  zero : b.cells last = '\x00'
  nul_free : '\x00' ∉ cs
  written : ∀ j ∈ b.written, b.pos ≤ j ∧ j ≤ last

theorem start_holds (cells : Int → Char) (last : Nat) : Holds last [] (start cells last) where
  pos := by simp [start]
  cells i h := by simp at h
  zero := update_self _ _ _
  nul_free := by simp
  written := by simp [start]

theorem Holds.push (h : Holds last cs b) (hc : c ≠ '\x00') : Holds last (c :: cs) (b.push c) where
  pos := by
    have hpos := h.pos
    simp only [Backfill.push, List.length_cons]
    omega
  cells i hi := by
    cases i with
    | zero => simp [Backfill.push]
    | succ i =>
      have hplace : b.pos - 1 + ((i + 1 : Nat) : Int) = b.pos + i := by omega
      have hne : b.pos + (i : Int) ≠ b.pos - 1 := by omega
      simp only [Backfill.push, hplace, update_of_ne hne, List.getElem_cons_succ]
      exact h.cells i (by simpa using hi)
  zero := by
    have hpos := h.pos
    have hne : (last : Int) ≠ b.pos - 1 := by omega
    simp only [Backfill.push, update_of_ne hne]
    exact h.zero
  nul_free := by simpa [Ne.symm hc] using h.nul_free
  written j hj := by
    have hpos := h.pos
    simp only [Backfill.push] at hj ⊢
    rcases List.mem_cons.mp hj with rfl | hj
    · omega
    · have hold := h.written j hj
      omega

/-- The string that is read is the text. -/
theorem Holds.text (h : Holds last cs b) {size : Nat} (hsize : cs.length < size) :
    b.text size = cs := by
  have hcells : ((List.range size).map fun i : Nat => b.cells (b.pos + i)).take (cs.length + 1) =
      cs ++ ['\x00'] := by
    apply List.ext_getElem
    · simp
      omega
    · intro i hi _
      rw [List.getElem_take, List.getElem_map, List.getElem_range]
      by_cases hlt : i < cs.length
      · rw [h.cells i hlt, List.getElem_append_left hlt]
      · have hpos := h.pos
        have hi' : i = cs.length := by
          simp only [List.length_take, List.length_map, List.length_range] at hi
          omega
        subst hi'
        rw [hpos, h.zero]
        simp
  have hsplit := List.take_append_drop (cs.length + 1)
    ((List.range size).map fun i : Nat => b.cells (b.pos + i))
  unfold Backfill.text
  rw [← hsplit, hcells, List.append_assoc, List.takeWhile_append_of_pos]
  · simp
  · intro c hc
    simpa using fun hzero : c = '\x00' => h.nul_free (hzero ▸ hc)

/-! ## Digits -/

/-- The digits that `drain` writes with so much room, in front of `acc`. -/
def digits (digit : Nat → Char) (base : Nat) : Nat → Nat → List Char → List Char
  | 0, _, acc => acc
  | room + 1, n, acc =>
    if 0 < n then digits digit base room (n / base) (digit (n % base) :: acc) else acc

/-- **The digits of a number** are written in front of the text. -/
theorem Holds.drain {room : Nat} (hbase : 0 < base) (hdigit : ∀ d < base, digit d ≠ '\x00')
    (h : Holds last cs b) (hroom : b.pos = room) :
    Holds last (digits digit base room n cs) (b.drain digit base n) ∧
      0 ≤ (b.drain digit base n).pos := by
  induction room generalizing b n cs with
  | zero =>
    rw [Backfill.drain, if_neg (by omega)]
    exact ⟨h, by omega⟩
  | succ room ih =>
    rw [Backfill.drain, digits]
    by_cases hn : 0 < n
    · have hnext : (b.push (digit (n % base))).pos = room := by
        simp only [Backfill.push]
        omega
      have hgo : 0 < n ∧ 0 < b.pos := ⟨hn, by omega⟩
      rw [if_pos hgo, if_pos hn]
      exact ih (h.push (hdigit _ (Nat.mod_lt _ hbase))) hnext
    · have hstop : ¬ (0 < n ∧ 0 < b.pos) := fun hgo => hn hgo.1
      rw [if_neg hstop, if_neg hn]
      exact ⟨h, by omega⟩

theorem mem_digits {room : Nat} {acc : List Char} (hbase : 0 < base)
    (h : c ∈ digits digit base room n acc) : c ∈ acc ∨ ∃ d < base, c = digit d := by
  induction room generalizing n acc with
  | zero => exact .inl h
  | succ room ih =>
    rw [digits] at h
    split at h
    · rcases ih h with h | h
      · rcases List.mem_cons.mp h with rfl | h
        · exact .inr ⟨_, Nat.mod_lt _ hbase, rfl⟩
        · exact .inl h
      · exact .inr h
    · exact .inl h

/-- For a number that is not 0 they are those of the loop that writes 0 too. -/
theorem digits_fill {room : Nat} {acc : List Char} (hn : 0 < n) :
    digits digit base room n acc = fill digit base room n acc := by
  induction room generalizing n acc with
  | zero => rfl
  | succ room ih =>
    rw [digits, fill, if_pos hn]
    by_cases hdiv : 0 < n / base
    · rw [if_pos hdiv, ih hdiv]
    · have hzero : n / base = 0 := Nat.eq_zero_of_not_pos hdiv
      rw [if_neg hdiv, hzero]
      cases room <;> rfl

/-! ## Padding -/

/-- **The text is padded** to the width, as far as there is room. -/
theorem Holds.pad {room w : Nat} (hc : c ≠ '\x00') (h : Holds last cs b) (hroom : b.pos = room)
    (hmore : ∀ p : Nat, p ≤ last → (more p = true ↔ last - p < w)) :
    Holds last (List.replicate (min w last - cs.length) c ++ cs) (b.pad more c) ∧
      0 ≤ (b.pad more c).pos := by
  induction room generalizing b cs with
  | zero =>
    have hpos := h.pos
    have hnone : min w last - cs.length = 0 := by omega
    rw [Backfill.pad, if_neg (by omega), hnone]
    exact ⟨h, by omega⟩
  | succ room ih =>
    have hpos := h.pos
    have hcond : more b.pos = true ↔ cs.length < w := by
      rw [hroom, hmore _ (by omega)]
      omega
    rw [Backfill.pad]
    by_cases hlt : cs.length < w
    · have hnext : (b.push c).pos = room := by
        simp only [Backfill.push]
        omega
      have hcount : min w last - cs.length = min w last - (c :: cs).length + 1 := by
        rw [List.length_cons]
        omega
      rw [if_pos ⟨hcond.mpr hlt, by omega⟩, hcount, List.replicate_succ', List.append_assoc,
        List.singleton_append]
      exact ih (h.push hc) hnext
    · have hnone : min w last - cs.length = 0 := by omega
      rw [if_neg (fun hc => hlt (hcond.mp hc.1)), hnone]
      exact ⟨h, by omega⟩

end Backfill

/-! ## Reading digits -/

namespace Digits

/-- The value of a digit, decimal or hexadecimal. -/
def digitValue (c : Char) : Option Nat :=
  if '0' ≤ c ∧ c ≤ '9' then some (c.toNat - 48)
  else if 'a' ≤ c ∧ c ≤ 'f' then some (c.toNat - 87)
  else none

/-- One more digit of the base behind the number read so far. -/
def readDigit (b n : Nat) (c : Char) : Option Nat :=
  (digitValue c).bind fun d => if d < b then some (b * n + d) else none

/-- The number that is written, the first digit the most significant. A text that is empty, or has
anything but digits of the base in it, is no number. -/
def read (b : Nat) (cs : List Char) : Option Nat :=
  if cs = [] then none else cs.foldlM (readDigit b) 0

variable {b d k m n : Nat} {c : Char} {cs : List Char}

theorem digitValue_digitChar : ∀ d < 16, digitValue (Nat.digitChar d) = some d := by decide

theorem readDigit_digitChar (hb : b ≤ 16) (hd : d < b) (n : Nat) :
    readDigit b n (Nat.digitChar d) = some (b * n + d) := by
  rw [readDigit, digitValue_digitChar d (by omega), Option.bind_some, if_pos hd]

theorem foldlM_toDigits (hb : 1 < b) (hb' : b ≤ 16) (n : Nat) :
    (Nat.toDigits b n).foldlM (readDigit b) 0 = some n := by
  induction n using Nat.strongRecOn with
  | ind n ih =>
    rw [Nat.toDigits_eq_if hb]
    split
    · rename_i hlt
      rw [List.foldlM_cons, readDigit_digitChar hb' hlt, Nat.mul_zero, Nat.zero_add]
      rfl
    · rename_i hge
      have hlast : n % b < b := Nat.mod_lt n (by omega)
      rw [List.foldlM_append, ih _ (Nat.div_lt_self (by omega) hb)]
      show (readDigit b (n / b) (Nat.digitChar (n % b))).bind some = some n
      rw [readDigit_digitChar hb' hlast, Nat.div_add_mod]
      rfl

/-- **The digits of a number** are read as the number. -/
theorem read_toDigits (hb : 1 < b) (hb' : b ≤ 16) (n : Nat) :
    read b (Nat.toDigits b n) = some n := by
  rw [read, if_neg Nat.toDigits_ne_nil, foldlM_toDigits hb hb']

/-- Zeros in front do not count. -/
theorem read_zeros (hb : 0 < b) (hb' : b ≤ 16) (k : Nat) (hcs : cs ≠ []) :
    read b (List.replicate k '0' ++ cs) = read b cs := by
  induction k with
  | zero => rfl
  | succ k ih =>
    have hne : List.replicate k '0' ++ cs ≠ [] := List.append_ne_nil_of_right_ne_nil _ hcs
    have hzero : readDigit b 0 '0' = some 0 := readDigit_digitChar hb' hb 0
    rw [read, if_neg hne] at ih
    rw [List.replicate_succ, List.cons_append, ← ih, read, if_neg (List.cons_ne_nil _ _),
      List.foldlM_cons, hzero]
    rfl

theorem readDigit_lt (h : readDigit b m c = some n) : n < b * (m + 1) := by
  obtain ⟨d, -, h⟩ := Option.bind_eq_some_iff.mp h
  split at h
  · cases h
    rw [Nat.mul_succ]
    omega
  · cases h

theorem foldlM_readDigit_lt (h : cs.foldlM (readDigit b) m = some n) :
    n < (m + 1) * b ^ cs.length := by
  induction cs generalizing m with
  | nil =>
    obtain rfl := Option.some.inj h
    simp
  | cons c cs ih =>
    rw [List.foldlM_cons] at h
    obtain ⟨k, hk, h⟩ := Option.bind_eq_some_iff.mp h
    calc n < (k + 1) * b ^ cs.length := ih h
      _ ≤ b * (m + 1) * b ^ cs.length := Nat.mul_le_mul_right _ (readDigit_lt hk)
      _ = (m + 1) * b ^ (cs.length + 1) := by rw [Nat.pow_succ']; ring

/-- So many digits are read as less than the power of the base. -/
theorem read_lt (h : read b cs = some n) : n < b ^ cs.length := by
  unfold read at h
  split at h
  · cases h
  · simpa using foldlM_readDigit_lt h

/-- A number that is not 0 does not begin with 0. -/
theorem toDigits_head (hb : 1 < b) (hb' : b ≤ 16) (hn : 0 < n) :
    (Nat.toDigits b n).head? ≠ some '0' := by
  induction n using Nat.strongRecOn with
  | ind n ih =>
    rw [Nat.toDigits_eq_if hb]
    split
    · have hnot : ∀ d < 16, 0 < d → Nat.digitChar d ≠ '0' := by decide
      simpa using hnot n (by omega) hn
    · rename_i hge
      have hrest := ih (n / b) (Nat.div_lt_self hn hb) (Nat.div_pos (by omega) (by omega))
      obtain ⟨c, ds, hds⟩ := toDigits_eq_cons b (n / b)
      rw [hds] at hrest ⊢
      exact hrest

end Digits

end OSCompas
