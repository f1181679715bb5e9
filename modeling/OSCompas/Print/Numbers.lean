import OSCompas.Lib.Backfill
import OSCompas.Print.Bounds

/-!
# Printing numbers (`lab3-1-sparrowos-memory-module/kernel/print.c`)

`print_dec` and `print_hex` fill a buffer of 20 bytes from its end, so there is room for 19 digits;
the greatest numbers of 64 bits have 20 decimal ones.

* `printDec`, `printHex`, `printBin` — the three functions;
* `DecLossless`, `HexLossless`, `BinLossless` — what is asked of them.

Principal results: `print_dec_lossless_iff` and `print_hex_bin_lossless`.
-/

set_option autoImplicit false

namespace OSCompas.Print.Numbers

open Digits Backfill Bounds

/-! ## The functions -/

/-- `print_dec`: the buffer, which held `cells`, and what is sent. -/
def printDec (cells : Int → Char) (value : BitVec 64) : Backfill × List Char :=
  let b := Backfill.start cells 19
  let b := if value = 0 then b.push '0' else b.drain decChar 10 value.toNat
  (b, puts (b.text 20))

/-- The digit loop of `print_hex`. -/
def hexDrain (value : Nat) (b : Backfill) : Backfill :=
  if 0 < value ∧ 0 < b.pos then hexDrain (value >>> 4) (b.push (hexChar (value &&& 0xF))) else b
termination_by b.pos.toNat
decreasing_by
  simp only [push]
  omega

/-- `(sizeof(buffer) - 1 - pos) < width`, without signs. -/
def narrow (width : BitVec 32) (pos : Int) : Bool :=
  (19#64 - BitVec.ofInt 64 pos).ult (width.signExtend 64)

/-- `print_hex`. -/
def printHex (cells : Int → Char) (value : BitVec 64) (width : BitVec 32) :
    Backfill × List Char :=
  let b := Backfill.start cells 19
  let b := if value = 0 then b.push '0' else hexDrain value.toNat b
  let b := b.pad (narrow width) '0'
  (b, puts ['0', 'x'] ++ puts (b.text 20))

/-- The loop of `print_bin` from `i = n - 1` down. -/
def binLoop (value : BitVec 64) : Nat → List Char
  | 0 => []
  | i + 1 =>
    putchar (if (value >>> i) &&& 1 ≠ 0 then '1' else '0') ++
      ((if 0 < i ∧ i % 4 = 0 then putchar '_' else []) ++ binLoop value i)

/-- `print_bin`. -/
def printBin (value : BitVec 64) (width : BitVec 32) : List Char :=
  let width := if (64#32).slt width then 64#32 else width
  puts ['0', 'b'] ++ binLoop value width.toInt.toNat

/-! ## The properties -/

/-- What `print_dec` sends are decimal digits, read as the value, with no leading zero but in the
text `0`, and the index of the buffer is never negative. -/
structure DecLossless (cells : Int → Char) (value : BitVec 64) : Prop where
  same : read 10 (printDec cells value).2 = some value.toNat
  leading : (printDec cells value).2.head? = some '0' → (printDec cells value).2 = ['0']
  index : ∀ j ∈ (printDec cells value).1.written, 0 ≤ j

/-- What `print_hex` sends behind `0x` are hexadecimal digits, read as the value, and as many as the
value has or as the width asks for, 19 at most and with a negative width; the indices of the buffer
are in it. -/
def HexLossless (cells : Int → Char) (value : BitVec 64) (width : BitVec 32) : Prop :=
  ∃ ds, (printHex cells value width).2 = '0' :: 'x' :: ds ∧ read 16 ds = some value.toNat ∧
    ds.length = max (Nat.toDigits 16 value.toNat).length
      (if 0 ≤ width.toInt then min width.toInt.toNat 19 else 19) ∧
    ∀ j ∈ (printHex cells value width).1.written, 0 ≤ j ∧ j ≤ 19

/-- What `print_bin` sends behind `0b` are, underscores apart, the low bits of the value. -/
def BinLossless (value : BitVec 64) (width : BitVec 32) : Prop :=
  ∃ ds, printBin value width = '0' :: 'b' :: ds ∧
    ds.filter (· ≠ '_') = (List.range (min width.toInt.toNat 64)).reverse.map fun i =>
      if value.getLsbD i then '1' else '0'

variable {cells : Int → Char} {value : BitVec 64} {width : BitVec 32} {b : Backfill}
  {cs : List Char} {n : Nat}

/-- A text of one line is sent as it is. -/
theorem puts_eq (h : '\n' ∉ cs) : puts cs = cs := by
  induction cs with
  | nil => rfl
  | cons c cs ih =>
    obtain ⟨hc, hcs⟩ := not_or.mp (mt List.mem_cons.mpr h)
    have hone : putchar c = [c] := if_neg (Ne.symm hc)
    show putchar c ++ puts cs = _
    rw [hone, ih hcs, List.singleton_append]

/-! ## Decimal -/

/-- The digits of `print_dec`. -/
def decText (value : BitVec 64) : List Char :=
  if value = 0 then ['0'] else digits decChar 10 19 value.toNat []

theorem decText_mem : ∀ c ∈ decText value, ∃ d < 10, c = decChar d := by
  intro c hc
  unfold decText at hc
  split at hc
  · exact ⟨0, by omega, List.mem_singleton.mp hc⟩
  · rcases mem_digits (by omega) hc with h | h
    · cases h
    · exact h

/-- What the buffer holds. -/
theorem printDec_holds (cells : Int → Char) (value : BitVec 64) :
    Holds 19 (decText value) (printDec cells value).1 ∧ 0 ≤ (printDec cells value).1.pos := by
  have hstart := start_holds cells 19
  unfold printDec decText
  dsimp only
  split
  · exact ⟨hstart.push (by simp), show (0 : Int) ≤ 19 - 1 by omega⟩
  · exact hstart.drain (by omega) (by decide) rfl

theorem decText_length (value : BitVec 64) : (decText value).length ≤ 19 := by
  obtain ⟨hholds, hpos⟩ := printDec_holds (fun _ => '\x00') value
  have hsum := hholds.pos
  omega

/-- What is sent. -/
theorem printDec_sent (cells : Int → Char) (value : BitVec 64) :
    (printDec cells value).2 = decText value := by
  have hlen := decText_length value
  have htext := (printDec_holds cells value).1.text (show (decText value).length < 20 by omega)
  have hline : '\n' ∉ decText value := by
    intro h
    obtain ⟨d, hd, he⟩ := decText_mem _ h
    have hnot : ∀ d < 10, '\n' ≠ decChar d := by decide
    exact hnot d hd he
  show puts ((printDec cells value).1.text 20) = _
  rw [htext, puts_eq hline]

/-- With at most 19 digits they are the value's. -/
theorem decText_eq (h : value.toNat < 10 ^ 19) : decText value = Nat.toDigits 10 value.toNat := by
  unfold decText
  split
  · rename_i hzero
    rw [hzero]
    rfl
  · rename_i hne
    have hpos : 0 < value.toNat := by
      rw [Nat.pos_iff_ne_zero]
      exact fun h0 => hne (BitVec.eq_of_toNat_eq h0)
    rw [digits_fill hpos, fill_eq (by omega) decChar_eq h (by omega), List.append_nil]

/-- 19 digits are too few otherwise. -/
theorem decText_read_lt (h : read 10 (decText value) = some n) : n < 10 ^ 19 :=
  lt_of_lt_of_le (read_lt h) (Nat.pow_le_pow_right (by omega) (decText_length value))

/-- **`print_dec` is lossless** just below 10^19. -/
theorem print_dec_lossless_iff (cells : Int → Char) (value : BitVec 64) :
    DecLossless cells value ↔ value.toNat < 10 ^ 19 := by
  constructor
  · intro h
    have hsame := h.same
    rw [printDec_sent] at hsame
    exact decText_read_lt hsame
  · intro h
    obtain ⟨hholds, hpos⟩ := printDec_holds cells value
    refine ⟨?_, ?_, fun j hj => hpos.trans (hholds.written j hj).1⟩
    · rw [printDec_sent, decText_eq h, read_toDigits (by omega) (by omega)]
    · rw [printDec_sent, decText_eq h]
      intro hhead
      by_cases hzero : value.toNat = 0
      · rw [hzero]
        rfl
      · exact absurd hhead (toDigits_head (by omega) (by omega) (Nat.pos_of_ne_zero hzero))

/-- Of 10000000000000000000 the zeros are sent. -/
theorem print_dec_loses : ¬ ∀ (cells : Int → Char) (value : BitVec 64),
    DecLossless cells value := by
  intro hall
  have hvalue := (hall (fun _ => '\x00') 10000000000000000000#64).same
  rw [printDec_sent] at hvalue
  exact absurd (decText_read_lt hvalue) (by decide)

/-! ## Hexadecimal -/

theorem hexDrain_eq (n : Nat) (b : Backfill) : hexDrain n b = b.drain hexChar 16 n := by
  fun_induction hexDrain n b with
  | case1 n b hgo ih =>
    have hmod : n &&& 0xF = n % 16 := Nat.and_two_pow_sub_one_eq_mod n 4
    have hdiv : n >>> 4 = n / 16 := Nat.shiftRight_eq_div_pow n 4
    rw [ih, Backfill.drain.eq_def hexChar 16 n, if_pos hgo, hmod, hdiv]
  | case2 n b hstop =>
    rw [Backfill.drain, if_neg hstop]

/-- The width without its sign. -/
def places (width : BitVec 32) : Nat := (width.signExtend 64).toNat

/-- A width that is not negative, and a negative one, which asks for more places than there are. -/
theorem places_eq (width : BitVec 32) :
    (places width : Int) = if 0 ≤ width.toInt then width.toInt else width.toInt + 2 ^ 64 := by
  have hext := BitVec.toInt_signExtend_of_le (x := width) (show 32 ≤ 64 by omega)
  rw [BitVec.toInt_eq_toNat_cond] at hext
  have hlt := (width.signExtend 64).isLt
  unfold places
  split at hext
  · rw [if_pos (by omega), ← hext]
  · rw [if_neg (by omega), ← hext]
    omega

theorem min_places (width : BitVec 32) : min (places width) 19 =
    if 0 ≤ width.toInt then min width.toInt.toNat 19 else 19 := by
  have hplaces := places_eq width
  have hlow : -2 ^ 31 ≤ width.toInt := BitVec.le_toInt width
  split at hplaces
  · rename_i hpos
    rw [if_pos hpos]
    omega
  · rename_i hneg
    rw [if_neg hneg]
    omega

theorem narrow_iff {p : Nat} (hp : p ≤ 19) :
    narrow width p = true ↔ 19 - p < places width := by
  have hplace : (19#64 - BitVec.ofInt 64 (p : Int)).toNat = 19 - p := by
    rw [BitVec.ofInt_natCast, BitVec.toNat_sub, BitVec.toNat_ofNat, BitVec.toNat_ofNat]
    omega
  unfold narrow places
  rw [BitVec.ult_iff_lt, BitVec.lt_def, hplace]

/-- The digits of `print_hex` without padding. -/
def hexText (value : BitVec 64) : List Char := Nat.toDigits 16 value.toNat

theorem hexText_mem : ∀ c ∈ hexText value, ∃ d < 16, c = Nat.digitChar d :=
  fun _ hc => digit_of_mem (by omega) hc

/-- What the buffer holds after the digits. -/
theorem hexText_holds (cells : Int → Char) (value : BitVec 64) :
    let b := Backfill.start cells 19
    let b := if value = 0 then b.push '0' else hexDrain value.toNat b
    Holds 19 (hexText value) b ∧ 0 ≤ b.pos := by
  have hstart := start_holds cells 19
  dsimp only
  unfold hexText
  split
  · rename_i hzero
    rw [hzero]
    exact ⟨hstart.push (by simp), show (0 : Int) ≤ 19 - 1 by omega⟩
  · rename_i hne
    have hpos : 0 < value.toNat := by
      rw [Nat.pos_iff_ne_zero]
      exact fun h0 => hne (BitVec.eq_of_toNat_eq h0)
    have hlt : value.toNat < 16 ^ 19 := Nat.lt_of_lt_of_le value.isLt (by decide)
    have hdrain : Holds 19 (digits hexChar 16 19 value.toNat []) _ ∧ _ :=
      hstart.drain (by omega) (by decide) rfl
    rwa [digits_fill hpos, fill_eq (by omega) hexChar_eq hlt (by omega), List.append_nil,
      ← hexDrain_eq] at hdrain

/-- What the buffer holds at the end. -/
theorem printHex_holds (cells : Int → Char) (value : BitVec 64) (width : BitVec 32) :
    Holds 19 (List.replicate (min (places width) 19 - (hexText value).length) '0' ++
      hexText value) (printHex cells value width).1 ∧ 0 ≤ (printHex cells value width).1.pos := by
  obtain ⟨hholds, hpos⟩ := hexText_holds cells value
  obtain ⟨room, hroom⟩ := Int.eq_ofNat_of_zero_le hpos
  exact hholds.pad (by simp) hroom fun p hp => narrow_iff hp

/-- **`print_hex` is lossless.** -/
theorem hexLossless (cells : Int → Char) (value : BitVec 64) (width : BitVec 32) :
    HexLossless cells value width := by
  obtain ⟨hholds, hpos⟩ := printHex_holds cells value width
  have hsum := hholds.pos
  refine ⟨List.replicate (min (places width) 19 - (hexText value).length) '0' ++ hexText value,
    ?_, ?_, ?_, fun j hj => ?_⟩
  · have htext : (printHex cells value width).1.text 20 = _ := hholds.text (by omega)
    have hline : '\n' ∉ List.replicate (min (places width) 19 - (hexText value).length) '0' ++
        hexText value := by
      have hnot : ∀ d < 16, '\n' ≠ Nat.digitChar d := by decide
      intro h
      rcases List.mem_append.mp h with h | h
      · cases (List.mem_replicate.mp h).2
      · obtain ⟨d, hd, he⟩ := hexText_mem _ h
        exact hnot d hd he
    show puts ['0', 'x'] ++ puts ((printHex cells value width).1.text 20) = _
    rw [htext, puts_eq hline]
    rfl
  · have hne : hexText value ≠ [] := Nat.toDigits_ne_nil
    rw [read_zeros (by omega) (by omega) _ hne]
    exact read_toDigits (by omega) (by omega) _
  · rw [← min_places, List.length_append, List.length_replicate]
    show _ = max (hexText value).length _
    omega
  · have hj' := hholds.written j hj
    omega

/-! ## Binary -/

/-- The lowest bit after a shift. -/
theorem shiftRight_and_one_ne_zero_iff (i : Nat) :
    (value >>> i) &&& 1 ≠ 0 ↔ value.getLsbD i = true := by
  have hone : (1 : BitVec 64) = 1#64 := rfl
  rw [hone, BitVec.and_one_eq_setWidth_ofBool_getLsbD, BitVec.getLsbD_ushiftRight, Nat.add_zero]
  cases value.getLsbD i <;> decide

/-- The bits from the `n`-th one down. -/
theorem binLoop_filter (value : BitVec 64) (n : Nat) :
    (binLoop value n).filter (· ≠ '_') =
      (List.range n).reverse.map fun i => if value.getLsbD i then '1' else '0' := by
  induction n with
  | zero => rfl
  | succ i ih =>
    have hunder : (if 0 < i ∧ i % 4 = 0 then putchar '_' else []).filter (· ≠ '_') = [] := by
      split <;> rfl
    have hdigit : (putchar (if (value >>> i) &&& 1 ≠ 0 then '1' else '0')).filter (· ≠ '_') =
        [if value.getLsbD i then '1' else '0'] := by
      simp only [shiftRight_and_one_ne_zero_iff]
      cases value.getLsbD i <;> rfl
    rw [binLoop, List.filter_append, List.filter_append, ih, hunder, hdigit, List.range_succ,
      List.reverse_append]
    rfl

/-- **`print_bin` is lossless.** -/
theorem binLossless (value : BitVec 64) (width : BitVec 32) : BinLossless value width := by
  have hwidth : (if (64#32).slt width then 64#32 else width).toInt.toNat =
      min width.toInt.toNat 64 := by
    have hslt : (64#32).slt width = decide (64 < width.toInt) := rfl
    rw [hslt]
    by_cases hlt : 64 < width.toInt
    · rw [if_pos (by simpa using hlt)]
      show 64 = _
      omega
    · rw [if_neg (by simpa using hlt)]
      omega
  refine ⟨binLoop value (min width.toInt.toNat 64), ?_, binLoop_filter value _⟩
  unfold printBin
  dsimp only
  rw [hwidth]
  rfl

/-- **`print_hex` and `print_bin` are lossless** for every value and every width. -/
theorem print_hex_bin_lossless (cells : Int → Char) (value : BitVec 64) (width : BitVec 32) :
    HexLossless cells value width ∧ BinLossless value width :=
  ⟨hexLossless cells value width, binLossless value width⟩

end OSCompas.Print.Numbers
