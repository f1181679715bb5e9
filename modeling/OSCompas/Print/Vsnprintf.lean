import OSCompas.Lib.Digits
import Mathlib.Data.BitVec

/-!
# The kernel's formatter (`lab3-1-sparrowos-memory-module/kernel/print.c`)

* `CString`, `Arg` — texts and the slots of a `va_list`;
* `intLoop`, `decLoop`, `hexLoop` — the three digit loops, `copyWhile` — the loops that copy into
  the buffer while there is room;
* `convert` — the `switch`, but for `l`;
* `vsnprintfLoop`, `vsnprintf` — the formatter.

What has been stored in front of `ptr` stands for the buffer; a stray `*ptr++` may make it longer
than the buffer.

Principal results: `vsnprintfLoop_keeps` and `vsnprintfLoop_full`.
-/

set_option autoImplicit false

namespace OSCompas.Print

open Digits

/-! ## Arguments -/

/-- A string of C, without the zero at its end. -/
structure CString where
  chars : List Char
  nul_free : '\x00' ∉ chars
  deriving DecidableEq

/-- A slot of a `va_list`: a word, or a pointer to a string. -/
inductive Arg
  | word (v : BitVec 64)
  | str (s : CString)
  deriving DecidableEq

/-- `va_arg(args, int)` and `va_arg(args, unsigned int)`. -/
def vaInt : List Arg → Option (BitVec 32 × List Arg)
  | .word v :: args => some (v.setWidth 32, args)
  | _ => none

/-- `va_arg(args, uint64_t)` and `va_arg(args, void *)`. -/
def vaWord : List Arg → Option (BitVec 64 × List Arg)
  | .word v :: args => some (v, args)
  | _ => none

/-- `va_arg(args, const char *)`, and `"(null)"` for a null pointer. -/
def vaStr : List Arg → Option (List Char × List Arg)
  | .str s :: args => some (s.chars, args)
  | .word v :: args => if v = 0 then some ("(null)".toList, args) else none
  | [] => none

/-! ## Digits -/

/-- `'0' + d`. -/
def decChar (d : Nat) : Char := Char.ofNat (48 + d)

/-- `hex[d]`. -/
def hexChar (d : Nat) : Char := "0123456789abcdef".toList.getD d '\x00'

/-- The digit loop of `%d`, on an `int`, with so much room in `num_buf`. -/
def intLoop : Nat → BitVec 32 → List Char → List Char
  | 0, _, acc => acc
  | room + 1, val, acc =>
    let acc := Char.ofNat (48 + (val.srem 10#32).toInt).toNat :: acc
    let val := val.sdiv 10#32
    if (0#32).slt val then intLoop room val acc else acc

/-- The digit loop of `%u`. -/
def decLoop (room : Nat) (val : Nat) : List Char := fill decChar 10 room val []

/-- The digit loop of `%x`, `%p` and `%llx`. -/
def hexLoop : Nat → Nat → List Char → List Char
  | 0, _, acc => acc
  | room + 1, val, acc =>
    let acc := hexChar (val &&& 0xF) :: acc
    let val := val >>> 4
    if 0 < val then hexLoop room val acc else acc

/-! ## The formatter -/

/-- `while (*p && ptr < end) *ptr++ = *p++;` -/
def copyWhile (bufEnd : Nat) : List Char → List Char → List Char
  | [], out => out
  | c :: p, out => if out.length < bufEnd then copyWhile bufEnd p (out ++ [c]) else out

/-- The cases of the `switch` other than `l`: the arguments left, and what is stored. -/
def convert (bufEnd : Nat) (c : Char) (args : List Arg) (out : List Char) :
    Option (List Arg × List Char) :=
  match c with
  | 'd' | 'i' => do
    let (val, args) ← vaInt args
    let (out, val) := if val.slt 0#32 then (out ++ ['-'], -val) else (out, val)
    return (args, copyWhile bufEnd (intLoop 19 val []) out)
  | 'u' => do
    let (val, args) ← vaInt args
    return (args, copyWhile bufEnd (decLoop 19 val.toNat) out)
  | 'x' => do
    let (val, args) ← vaInt args
    return (args, copyWhile bufEnd (hexLoop 19 val.toNat []) out)
  | 'p' => do
    let (val, args) ← vaWord args
    return (args, copyWhile bufEnd (hexLoop 19 val.toNat []) (out ++ ['0', 'x']))
  | 'c' => do
    let (val, args) ← vaInt args
    return (args, out ++ [Char.ofNat (val.toNat % 256)])
  | 's' => do
    let (str, args) ← vaStr args
    return (args, copyWhile bufEnd str out)
  | '%' => some (args, out ++ ['%'])
  | c => some (args, out ++ ['%', c])

/-- The loop of `vsnprintf` over the rest of the format; nothing when it reads past the end of the
format or takes an argument that is not there. -/
def vsnprintfLoop (bufEnd : Nat) : List Char → List Arg → List Char → Option (List Char)
  | [], _, out => some out
  | c :: fmt, args, out =>
    if bufEnd ≤ out.length then some out
    else if c ≠ '%' then vsnprintfLoop bufEnd fmt args (out ++ [c])
    else
      match fmt with
      | [] => none
      | 'l' :: 'l' :: 'x' :: fmt =>
        match vaWord args with
        | none => none
        | some (val, args) =>
          vsnprintfLoop bufEnd fmt args (copyWhile bufEnd (hexLoop 19 val.toNat []) out)
      | 'l' :: fmt => vsnprintfLoop bufEnd fmt args out
      | c :: fmt =>
        match convert bufEnd c args out with
        | none => none
        | some (args, out) => vsnprintfLoop bufEnd fmt args out

/-- What is in the buffer, and what is returned. -/
structure Formatted where
  buf : List Char
  ret : Nat
  deriving DecidableEq

/-- `vsnprintf`. -/
def vsnprintf (size : Nat) (fmt : CString) (args : List Arg) : Option Formatted :=
  if size = 0 then some ⟨[], 0⟩
  else (vsnprintfLoop (size - 1) fmt.chars args []).map fun out => ⟨out ++ ['\x00'], out.length⟩

variable {bufEnd room : Nat} {c : Char} {fmt str : List Char} {args args' : List Arg}
  {out out' : List Char}

/-! ## The digit loops -/

theorem decChar_eq : ∀ d < 10, decChar d = Nat.digitChar d := by decide

theorem hexChar_eq : ∀ d < 16, hexChar d = Nat.digitChar d := by decide

theorem decLoop_eq {n : Nat} (hn : n < 10 ^ room) (hroom : 0 < room) :
    decLoop room n = Nat.toDigits 10 n := by
  rw [decLoop, fill_eq (by decide) decChar_eq hn hroom, List.append_nil]

theorem hexLoop_fill (room n : Nat) (acc : List Char) :
    hexLoop room n acc = fill hexChar 16 room n acc := by
  induction room generalizing n acc with
  | zero => rfl
  | succ room ih =>
    have hmod : n &&& 0xF = n % 16 := Nat.and_two_pow_sub_one_eq_mod n 4
    have hdiv : n >>> 4 = n / 16 := Nat.shiftRight_eq_div_pow n 4
    simp only [hexLoop, fill, hmod, hdiv, ih]

theorem hexLoop_eq {n : Nat} (hn : n < 16 ^ room) (hroom : 0 < room) :
    hexLoop room n [] = Nat.toDigits 16 n := by
  rw [hexLoop_fill, fill_eq (by decide) hexChar_eq hn hroom, List.append_nil]

/-- On an `int` that is not negative the signed loop is the unsigned one. -/
theorem intLoop_fill (room : Nat) {val : BitVec 32} (h : 0 ≤ val.toInt) (acc : List Char) :
    intLoop room val acc = fill decChar 10 room val.toNat acc := by
  induction room generalizing val acc with
  | zero => rfl
  | succ room ih =>
    have hmsb : val.msb = false := by
      rw [BitVec.msb_eq_toInt]
      simpa using h
    have h10 : (10#32).msb = false := by decide
    have hrem : (val.srem 10#32).toInt = (val.toNat % 10 : Nat) := by
      rw [BitVec.toInt_srem, BitVec.toInt_eq_toNat_of_msb hmsb]
      rfl
    have hdiv : (val.sdiv 10#32).toNat = val.toNat / 10 := by
      rw [BitVec.sdiv_eq, hmsb, h10]
      exact BitVec.toNat_udiv
    have hsmall : (val.sdiv 10#32).toInt = (val.toNat / 10 : Nat) := by
      have hlt := val.isLt
      rw [← hdiv]
      apply BitVec.toInt_eq_toNat_of_lt
      omega
    have hpos : (0#32).slt (val.sdiv 10#32) = decide (0 < val.toNat / 10) := by
      rw [BitVec.slt, hsmall]
      exact decide_eq_decide.mpr Int.natCast_pos
    have hchar : (48 + ((val.toNat % 10 : Nat) : Int)).toNat = 48 + val.toNat % 10 := by omega
    have hih := ih (show 0 ≤ (val.sdiv 10#32).toInt by omega)
    simp only [intLoop, fill, decChar, hrem, hpos, hchar, decide_eq_true_eq, hih, hdiv]

/-! ## What is stored stays -/

theorem copyWhile_eq : copyWhile bufEnd str out = out ++ str.take (bufEnd - out.length) := by
  induction str generalizing out with
  | nil => simp [copyWhile]
  | cons c str ih =>
    rw [copyWhile]
    by_cases h : out.length < bufEnd
    · have hroom : bufEnd - out.length = bufEnd - (out ++ [c]).length + 1 := by
        rw [List.length_append, List.length_singleton]
        omega
      rw [if_pos h, ih, hroom, List.take_succ_cons, List.append_assoc]
      rfl
    · rw [if_neg h, Nat.sub_eq_zero_of_le (by omega), List.take_zero, List.append_nil]

theorem prefix_copyWhile : out <+: copyWhile bufEnd str out := by
  rw [copyWhile_eq]
  exact List.prefix_append ..

theorem convert_keeps (h : convert bufEnd c args out = some (args', out')) : out <+: out' := by
  unfold convert at h
  split at h
  all_goals try simp only [Option.bind_eq_bind, Option.bind_eq_some_iff, Option.pure_def,
    Option.some.injEq, Prod.mk.injEq, Prod.exists] at h
  · obtain ⟨val, _, -, -, rfl⟩ := h
    split
    · exact (List.prefix_append ..).trans prefix_copyWhile
    · exact prefix_copyWhile
  · obtain ⟨val, _, -, -, rfl⟩ := h
    split
    · exact (List.prefix_append ..).trans prefix_copyWhile
    · exact prefix_copyWhile
  · obtain ⟨val, _, -, -, rfl⟩ := h
    exact prefix_copyWhile
  · obtain ⟨val, _, -, -, rfl⟩ := h
    exact prefix_copyWhile
  · obtain ⟨val, _, -, -, rfl⟩ := h
    exact (List.prefix_append ..).trans prefix_copyWhile
  · obtain ⟨val, _, -, -, rfl⟩ := h
    exact List.prefix_append ..
  · obtain ⟨str, _, -, -, rfl⟩ := h
    exact prefix_copyWhile
  · obtain ⟨-, rfl⟩ := h
    exact List.prefix_append ..
  · obtain ⟨-, rfl⟩ := h
    exact List.prefix_append ..

/-- **The loop only adds to what has been stored.** -/
theorem vsnprintfLoop_keeps (h : vsnprintfLoop bufEnd fmt args out = some out') :
    out <+: out' := by
  fun_induction vsnprintfLoop bufEnd fmt args out with
  | case1 args out => exact Option.some.inj h ▸ List.prefix_rfl
  | case2 c fmt args out hfull => exact Option.some.inj h ▸ List.prefix_rfl
  | case3 c fmt args out hroom hc ih => exact (List.prefix_append ..).trans (ih h)
  | case4 c args out hroom hc => cases h
  | case5 c args out hroom hc fmt hva => cases h
  | case6 c args out hroom hc fmt val args' hva ih => exact prefix_copyWhile.trans (ih h)
  | case7 c args out hroom hc fmt hllx ih => exact ih h
  | case8 c args out hroom hc c' fmt hllx hl hconv => cases h
  | case9 c args out hroom hc c' fmt hllx hl args' out' hconv ih =>
    exact (convert_keeps hconv).trans (ih h)

/-! ## The turns of the loop -/

/-- When the buffer is full the loop ends. -/
theorem vsnprintfLoop_full (h : bufEnd ≤ out.length) :
    vsnprintfLoop bufEnd fmt args out = some out := by
  cases fmt with
  | nil => rfl
  | cons c fmt =>
    rw [vsnprintfLoop.eq_def]
    exact if_pos h

theorem vsnprintfLoop_char (hout : out.length < bufEnd) (hc : c ≠ '%') :
    vsnprintfLoop bufEnd (c :: fmt) args out = vsnprintfLoop bufEnd fmt args (out ++ [c]) := by
  rw [vsnprintfLoop.eq_def]
  exact (if_neg (by omega)).trans (if_pos hc)

theorem vsnprintfLoop_convert (hout : out.length < bufEnd) (hc : c ≠ 'l') :
    vsnprintfLoop bufEnd ('%' :: c :: fmt) args out =
      (convert bufEnd c args out).bind fun q => vsnprintfLoop bufEnd fmt q.1 q.2 := by
  rw [vsnprintfLoop, if_neg (by omega), if_neg (by simp)]
  · cases convert bufEnd c args out <;> rfl
  · intro _ h
    exact absurd h hc
  · exact hc

theorem vsnprintfLoop_llx (hout : out.length < bufEnd) :
    vsnprintfLoop bufEnd ('%' :: 'l' :: 'l' :: 'x' :: fmt) args out =
      (vaWord args).bind fun q => vsnprintfLoop bufEnd fmt q.2
        (copyWhile bufEnd (hexLoop 19 q.1.toNat []) out) := by
  rw [vsnprintfLoop, if_neg (by omega), if_neg (by simp)]
  cases vaWord args <;> rfl

/-- `%llu` is not known: the argument stays, and `lu` is taken for text. -/
theorem vsnprintfLoop_llu (hout : out.length < bufEnd) :
    vsnprintfLoop bufEnd ('%' :: 'l' :: 'l' :: 'u' :: fmt) args out =
      vsnprintfLoop bufEnd ('l' :: 'u' :: fmt) args out := by
  rw [vsnprintfLoop, if_neg (by omega), if_neg (by simp)]
  simp

end OSCompas.Print
