import OSCompas.Print.Vsnprintf

/-!
# The formatter and `printf`

* `Piece` — a character of text or a conversion with its argument: how it is written in a format
  (`spec`), what it takes from the arguments (`args`), and what `printf` makes of it (`render`);
* `Piece.Supported`, `Safe` — what the formatter gets right with so much room in the buffer;
* `Faithful` — the first `size - 1` characters of the rendering, a zero, and their number.

`%llu`, `%zu` and `%02x` are not known to the formatter; `%p` may store a character too many, and
the negation of the least `int` overflows.

Principal results: `Piece.loop_supported`, `Piece.loop_unsupported` and `vsnprintf_faithful_iff`.
-/

set_option autoImplicit false

namespace OSCompas.Print

open Digits

/-! ## `printf` -/

/-- A character of text, or a conversion with its argument. -/
inductive Piece
  | text (c : Char) (h : c ≠ '%' ∧ c ≠ '\x00')
  | percent
  | d (v : BitVec 32)
  | i (v : BitVec 32)
  | u (v : BitVec 32)
  | x (v : BitVec 32)
  | p (v : BitVec 64)
  | c (v : BitVec 32)
  | s (str : CString)
  | llx (v : BitVec 64)
  | llu (v : BitVec 64)
  | zu (v : BitVec 64)
  | x02 (v : BitVec 32)

/-- A number with its sign. -/
def printInt (z : Int) : List Char :=
  if z < 0 then '-' :: Nat.toDigits 10 z.natAbs else Nat.toDigits 10 z.natAbs

namespace Piece

/-- How it is written. -/
def spec : Piece → List Char
  | text ch _ => [ch]
  | percent => ['%', '%']
  | d _ => ['%', 'd']
  | i _ => ['%', 'i']
  | u _ => ['%', 'u']
  | x _ => ['%', 'x']
  | p _ => ['%', 'p']
  | c _ => ['%', 'c']
  | s _ => ['%', 's']
  | llx _ => ['%', 'l', 'l', 'x']
  | llu _ => ['%', 'l', 'l', 'u']
  | zu _ => ['%', 'z', 'u']
  | x02 _ => ['%', '0', '2', 'x']

/-- What it takes from the arguments; numbers of 32 bits come in registers of 64. -/
def args : Piece → List Arg
  | text _ _ | percent => []
  | d v | i v | u v | x v | c v | x02 v => [.word (v.signExtend 64)]
  | p v | llx v | llu v | zu v => [.word v]
  | s str => [.str str]

/-- What `printf` makes of it. -/
def render : Piece → List Char
  | text ch _ => [ch]
  | percent => ['%']
  | d v | i v => printInt v.toInt
  | u v => Nat.toDigits 10 v.toNat
  | x v => Nat.toDigits 16 v.toNat
  | p v => '0' :: 'x' :: Nat.toDigits 16 v.toNat
  | c v => [Char.ofNat (v.toNat % 256)]
  | s str => str.chars
  | llx v => Nat.toDigits 16 v.toNat
  | llu v | zu v => Nat.toDigits 10 v.toNat
  | x02 v =>
    List.replicate (2 - (Nat.toDigits 16 v.toNat).length) '0' ++ Nat.toDigits 16 v.toNat

/-- What the formatter gets right when there is room for so many characters. -/
def Supported (room : Nat) : Piece → Prop
  | d v | i v => v ≠ BitVec.intMin 32 ∨ room ≤ 1
  | p _ => 2 ≤ room
  | llu _ | zu _ | x02 _ => False
  | _ => True

instance (room : Nat) (q : Piece) : Decidable (q.Supported room) :=
  match q with
  | d _ | i _ => inferInstanceAs (Decidable (_ ∨ _))
  | p _ => inferInstanceAs (Decidable (2 ≤ room))
  | llu _ | zu _ | x02 _ => inferInstanceAs (Decidable False)
  | text _ _ | percent | u _ | x _ | c _ | s _ | llx _ => inferInstanceAs (Decidable True)

theorem spec_nul_free (q : Piece) : '\x00' ∉ q.spec := by
  cases q with
  | text ch h => simpa [spec] using h.2.symm
  | _ => simp [spec]

end Piece

/-- Every piece that the formatter gets to before the buffer is full is supported there. -/
def Safe : Nat → List Piece → Prop
  | _, [] => True
  | room, q :: pieces => room = 0 ∨ q.Supported room ∧ Safe (room - q.render.length) pieces

instance decidableSafe : (room : Nat) → (pieces : List Piece) → Decidable (Safe room pieces)
  | _, [] => inferInstanceAs (Decidable True)
  | room, q :: pieces =>
    have := decidableSafe (room - q.render.length) pieces
    inferInstanceAs (Decidable (_ ∨ _ ∧ _))

/-- The format of the pieces. -/
def format (pieces : List Piece) : CString where
  chars := pieces.flatMap Piece.spec
  nul_free h := by
    obtain ⟨q, -, hq⟩ := List.mem_flatMap.mp h
    exact q.spec_nul_free hq

/-- What `printf` makes of them. -/
def render (pieces : List Piece) : List Char := pieces.flatMap Piece.render

/-- The formatter agrees with `printf`, whatever arguments follow those of the format. -/
def Faithful (size : Nat) (pieces : List Piece) (more : List Arg) : Prop :=
  vsnprintf size (format pieces) (pieces.flatMap Piece.args ++ more) =
    some ⟨(render pieces).take (size - 1) ++ ['\x00'], ((render pieces).take (size - 1)).length⟩

variable {bufEnd room : Nat} {fmt rest str w : List Char} {more : List Arg} {out : List Char}

/-! ## What is supported -/

/-- Text stored by force and then copied while there is room. -/
theorem copyWhile_append (h : out.length + w.length ≤ bufEnd) :
    copyWhile bufEnd str (out ++ w) = out ++ (w ++ str).take (bufEnd - out.length) := by
  have hroom : bufEnd - (out ++ w).length = bufEnd - out.length - w.length := by
    rw [List.length_append]
    omega
  rw [copyWhile_eq, hroom, List.take_append, List.append_assoc,
    List.take_of_length_le (show w.length ≤ bufEnd - out.length by omega)]

theorem vaInt_word (v : BitVec 32) :
    vaInt (.word (v.signExtend 64) :: more) = some (v, more) := by
  have hv : (v.signExtend 64).setWidth 32 = v := by
    ext k hk
    have hk64 : k < 64 := by omega
    simp [BitVec.getElem_signExtend, hk, hk64]
  rw [vaInt, hv]

/-- The digits of an `int` that is not negative. -/
theorem intLoop_pos {v : BitVec 32} (hpos : 0 ≤ v.toInt) :
    intLoop 19 v [] = Nat.toDigits 10 v.toInt.natAbs := by
  have hmsb : v.msb = false := by
    rw [BitVec.msb_eq_toInt]
    simpa using hpos
  have hnat : v.toInt.natAbs = v.toNat := by
    rw [BitVec.toInt_eq_toNat_of_msb hmsb]
    rfl
  have hlt : v.toNat < 10 ^ 19 := Nat.lt_of_lt_of_le v.isLt (by decide)
  rw [intLoop_fill 19 hpos, fill_eq (by decide) decChar_eq hlt (by decide), hnat,
    List.append_nil]

/-- `%d` and `%i`, but for the least number where more than its sign has room. -/
theorem convert_int {ch : Char} (hch : ch = 'd' ∨ ch = 'i') (hout : out.length < bufEnd)
    {v : BitVec 32} (hv : v ≠ BitVec.intMin 32 ∨ bufEnd - out.length ≤ 1) :
    convert bufEnd ch (.word (v.signExtend 64) :: more) out =
      some (more, out ++ (printInt v.toInt).take (bufEnd - out.length)) := by
  have hconv : convert bufEnd ch (.word (v.signExtend 64) :: more) out =
      some (more, if v.slt 0#32 then copyWhile bufEnd (intLoop 19 (-v) []) (out ++ ['-'])
        else copyWhile bufEnd (intLoop 19 v []) out) := by
    rcases hch with rfl | rfl
    · cases hslt : v.slt 0#32 <;> simp [convert, vaInt_word, hslt]
    · cases hslt : v.slt 0#32 <;> simp [convert, vaInt_word, hslt]
  have hslt : v.slt 0#32 = decide (v.toInt < 0) := rfl
  rw [hconv, hslt, printInt]
  by_cases hneg : v.toInt < 0
  · have hsign : out.length + ['-'].length ≤ bufEnd := hout
    rw [if_pos (decide_eq_true hneg), if_pos hneg, copyWhile_append hsign]
    rcases hv with hmin | hone
    · have hminus := BitVec.toInt_neg_of_ne_intMin hmin
      rw [intLoop_pos (by omega), hminus, Int.natAbs_neg]
      rfl
    · -- there is room for the sign only
      have hroom : bufEnd - out.length = 1 := by omega
      rw [hroom]
      rfl
  · rw [if_neg (by simpa using hneg), if_neg hneg, intLoop_pos (by omega), copyWhile_eq]

/-- A conversion of one letter. -/
theorem Piece.loop_of_convert {q : Piece} {ch : Char} (hspec : q.spec = ['%', ch]) (hch : ch ≠ 'l')
    (hout : out.length < bufEnd)
    (hconv : convert bufEnd ch (q.args ++ more) out =
      some (more, out ++ q.render.take (bufEnd - out.length))) :
    vsnprintfLoop bufEnd (q.spec ++ fmt) (q.args ++ more) out =
      vsnprintfLoop bufEnd fmt more (out ++ q.render.take (bufEnd - out.length)) := by
  rw [hspec]
  refine (vsnprintfLoop_convert hout hch).trans ?_
  rw [hconv]
  rfl

/-- **A supported piece is rendered as far as there is room.** -/
theorem Piece.loop_supported (q : Piece) (hout : out.length < bufEnd)
    (hq : q.Supported (bufEnd - out.length)) :
    vsnprintfLoop bufEnd (q.spec ++ fmt) (q.args ++ more) out =
      vsnprintfLoop bufEnd fmt more (out ++ q.render.take (bufEnd - out.length)) := by
  have hone (ch : Char) : [ch].take (bufEnd - out.length) = [ch] :=
    List.take_of_length_le (by rw [List.length_singleton]; omega)
  have hsmall32 (v : BitVec 32) (b : Nat) (hb : 2 ^ 32 ≤ b ^ 19) : v.toNat < b ^ 19 :=
    Nat.lt_of_lt_of_le v.isLt hb
  have hsmall64 (v : BitVec 64) : v.toNat < 16 ^ 19 :=
    Nat.lt_of_lt_of_le v.isLt (by decide)
  cases q with
  | text ch h =>
    rw [render, hone]
    exact vsnprintfLoop_char hout h.1
  | percent =>
    apply loop_of_convert rfl (by decide) hout
    rw [render, hone]
    rfl
  | d v => exact loop_of_convert rfl (by decide) hout (convert_int (.inl rfl) hout hq)
  | i v => exact loop_of_convert rfl (by decide) hout (convert_int (.inr rfl) hout hq)
  | u v =>
    apply loop_of_convert rfl (by decide) hout
    have hdigits := decLoop_eq (hsmall32 v 10 (by decide)) (by decide)
    simp [convert, args, vaInt_word, render, copyWhile_eq, hdigits]
  | x v =>
    apply loop_of_convert rfl (by decide) hout
    have hdigits := hexLoop_eq (hsmall32 v 16 (by decide)) (by decide)
    simp [convert, args, vaInt_word, render, copyWhile_eq, hdigits]
  | p v =>
    apply loop_of_convert rfl (by decide) hout
    have hdigits := hexLoop_eq (hsmall64 v) (by decide)
    have hfit : out.length + ['0', 'x'].length ≤ bufEnd := by
      have h2 : 2 ≤ bufEnd - out.length := hq
      simp
      omega
    simp [convert, args, vaWord, render, copyWhile_append hfit, hdigits]
  | c v =>
    apply loop_of_convert rfl (by decide) hout
    rw [render, hone]
    simp [convert, args, vaInt_word]
  | s str =>
    apply loop_of_convert rfl (by decide) hout
    simp [convert, args, vaStr, render, copyWhile_eq]
  | llx v =>
    have hdigits := hexLoop_eq (hsmall64 v) (by decide)
    refine (vsnprintfLoop_llx hout).trans ?_
    simp [args, vaWord, render, copyWhile_eq, hdigits]
  | llu v => exact hq.elim
  | zu v => exact hq.elim
  | x02 v => exact hq.elim

/-! ## What is not -/

/-- The loop stores a text behind what is there, and goes on somewhere. -/
def Stores (bufEnd : Nat) (fmt : List Char) (args : List Arg) (out w : List Char) : Prop :=
  ∃ fmt' args', vsnprintfLoop bufEnd fmt args out = vsnprintfLoop bufEnd fmt' args' (out ++ w)

/-- What has been stored is not taken back. -/
theorem Stores.ne {args : List Arg} {t : List Char} {n : Nat}
    (h : Stores bufEnd fmt args out w) (hw : ¬ w <+: t) :
    vsnprintfLoop bufEnd fmt args out ≠ some (out ++ t.take n) := by
  obtain ⟨fmt', args', heq⟩ := h
  intro hres
  have hprefix := vsnprintfLoop_keeps (heq.symm.trans hres)
  exact hw (((List.prefix_append_right_inj out).mp hprefix).trans (List.take_prefix n t))

theorem not_prefix_of_not_mem {ch : Char} {t : List Char} (ht : t ≠ []) (hch : ch ∉ t)
    (w u : List Char) : ¬ ch :: w <+: t ++ u := by
  obtain ⟨c, t, rfl⟩ := List.exists_cons_of_ne_nil ht
  intro h
  obtain ⟨rfl, -⟩ := List.cons_prefix_cons.mp h
  exact hch List.mem_cons_self

/-- A number is written in digits. -/
theorem not_mem_toDigits {b : Nat} (ch : Char) (n : Nat) (hb : 1 < b)
    (hch : ∀ d < b, ch ≠ Nat.digitChar d) : ch ∉ Nat.toDigits b n := by
  intro h
  obtain ⟨d, hd, rfl⟩ := digit_of_mem hb h
  exact hch d hd rfl

/-- No character is left of the `0x` of a pointer that is past the end of the buffer. -/
theorem loop_pointer (v : BitVec 64) (hout : out.length + 1 = bufEnd) :
    vsnprintfLoop bufEnd ('%' :: 'p' :: fmt) (.word v :: more) out = some (out ++ ['0', 'x']) := by
  have hcopy : copyWhile bufEnd (hexLoop 19 v.toNat []) (out ++ ['0', 'x']) =
      out ++ ['0', 'x'] := by
    rw [copyWhile_eq, Nat.sub_eq_zero_of_le (by simp; omega), List.take_zero, List.append_nil]
  rw [vsnprintfLoop_convert (by omega) (by decide)]
  simp only [convert, vaWord, Option.bind_eq_bind, Option.bind_some, Option.pure_def, hcopy]
  apply vsnprintfLoop_full
  simp
  omega

/-- The least `int` comes out as `-(`. -/
theorem stores_intMin {ch : Char} (hch : ch = 'd' ∨ ch = 'i') (hout : out.length + 1 < bufEnd) :
    Stores bufEnd ('%' :: ch :: fmt) (.word ((BitVec.intMin 32).signExtend 64) :: more) out
      ['-', '('] := by
  -- its negation is the number itself, and its last digit is taken for -8
  have hloop : intLoop 19 (BitVec.intMin 32) [] = ['('] := by decide
  have hslt : (BitVec.intMin 32).slt 0#32 = true := by decide
  have hcopy : copyWhile bufEnd ['('] (out ++ ['-']) = out ++ ['-', '('] := by
    rw [copyWhile, if_pos (by simpa using hout), List.append_assoc]
    rfl
  refine ⟨fmt, more, ?_⟩
  rcases hch with rfl | rfl
  · rw [vsnprintfLoop_convert (by omega) (by decide)]
    simp [convert, vaInt_word, hslt, hloop, hcopy]
  · rw [vsnprintfLoop_convert (by omega) (by decide)]
    simp [convert, vaInt_word, hslt, hloop, hcopy]

/-- **A piece that is not supported goes wrong**, whatever comes after it. -/
theorem Piece.loop_unsupported (q : Piece) (hout : out.length < bufEnd)
    (hq : ¬ q.Supported (bufEnd - out.length)) :
    vsnprintfLoop bufEnd (q.spec ++ fmt) (q.args ++ more) out ≠
      some (out ++ (q.render ++ rest).take (bufEnd - out.length)) := by
  have hmin (rest : List Char) :
      ¬ ['-', '('] <+: printInt (BitVec.intMin 32).toInt ++ rest := by
    have hprint : printInt (BitVec.intMin 32).toInt = "-2147483648".toList := by decide
    rw [hprint]
    simp
  cases q with
  | text ch h => exact absurd trivial hq
  | percent => exact absurd trivial hq
  | d v =>
    obtain ⟨rfl, hroom⟩ : v = BitVec.intMin 32 ∧ out.length + 1 < bufEnd := by
      simpa [Supported, Nat.add_comm] using hq
    exact (stores_intMin (.inl rfl) hroom).ne (hmin rest)
  | i v =>
    obtain ⟨rfl, hroom⟩ : v = BitVec.intMin 32 ∧ out.length + 1 < bufEnd := by
      simpa [Supported, Nat.add_comm] using hq
    exact (stores_intMin (.inr rfl) hroom).ne (hmin rest)
  | u v => exact absurd trivial hq
  | x v => exact absurd trivial hq
  | p v =>
    have hroom : out.length + 1 = bufEnd := by
      have h2 : ¬ 2 ≤ bufEnd - out.length := hq
      omega
    intro h
    have hlen := congrArg List.length
      (Option.some.inj ((loop_pointer v hroom).symm.trans h))
    simp only [List.length_append, List.length_take, List.length_cons, List.length_nil] at hlen
    omega
  | c v => exact absurd trivial hq
  | s str => exact absurd trivial hq
  | llx v => exact absurd trivial hq
  | llu v =>
    have hstores : Stores bufEnd ((llu v).spec ++ fmt) ((llu v).args ++ more) out ['l'] :=
      ⟨_, _, (vsnprintfLoop_llu hout).trans (vsnprintfLoop_char hout (by decide))⟩
    have hdigit := not_mem_toDigits 'l' v.toNat (show 1 < 10 by decide) (by decide)
    exact hstores.ne (not_prefix_of_not_mem Nat.toDigits_ne_nil hdigit _ _)
  | zu v =>
    have hstores : Stores bufEnd ((zu v).spec ++ fmt) ((zu v).args ++ more) out ['%', 'z'] :=
      ⟨_, _, vsnprintfLoop_convert hout (by decide)⟩
    have hdigit := not_mem_toDigits '%' v.toNat (show 1 < 10 by decide) (by decide)
    exact hstores.ne (not_prefix_of_not_mem Nat.toDigits_ne_nil hdigit _ _)
  | x02 v =>
    have hstores : Stores bufEnd ((x02 v).spec ++ fmt) ((x02 v).args ++ more) out ['%', '0'] :=
      ⟨_, _, vsnprintfLoop_convert hout (by decide)⟩
    have hne : (x02 v).render ≠ [] := by simp [render]
    have hdigit : '%' ∉ (x02 v).render := by
      have hdigits := not_mem_toDigits '%' v.toNat (show 1 < 16 by decide) (by decide)
      simp [render, hdigits]
    exact hstores.ne (not_prefix_of_not_mem hne hdigit _ _)

/-! ## The formatter agrees with `printf` -/

/-- **The loop renders the pieces as far as there is room exactly when they are safe.** -/
theorem vsnprintfLoop_iff (bufEnd : Nat) (pieces : List Piece) (more : List Arg)
    (out : List Char) :
    vsnprintfLoop bufEnd (pieces.flatMap Piece.spec) (pieces.flatMap Piece.args ++ more) out =
      some (out ++ (render pieces).take (bufEnd - out.length)) ↔
    Safe (bufEnd - out.length) pieces := by
  induction pieces generalizing out with
  | nil => simp [vsnprintfLoop, render, Safe]
  | cons q pieces ih =>
    rw [List.flatMap_cons, List.flatMap_cons, List.append_assoc, render, List.flatMap_cons, Safe]
    by_cases hfull : bufEnd ≤ out.length
    · have hroom : bufEnd - out.length = 0 := by omega
      simp [vsnprintfLoop_full hfull, hroom]
    · have hout : out.length < bufEnd := by omega
      have hroom : bufEnd - out.length ≠ 0 := by omega
      by_cases hq : q.Supported (bufEnd - out.length)
      · -- the piece is rendered, and leaves less room to the others
        have hless : bufEnd - (out ++ q.render.take (bufEnd - out.length)).length =
            bufEnd - out.length - q.render.length := by
          rw [List.length_append, List.length_take]
          omega
        have hih := ih (out ++ q.render.take (bufEnd - out.length))
        rw [hless, List.append_assoc, render] at hih
        rw [q.loop_supported hout hq, List.take_append]
        simpa [hroom, hq] using hih
      · simpa [hroom, hq] using q.loop_unsupported hout hq

/-- **The formatter agrees with `printf` exactly when the pieces are safe.** -/
theorem vsnprintf_faithful_iff (size : Nat) (pieces : List Piece) (more : List Arg)
    (hsize : 1 ≤ size) : Faithful size pieces more ↔ Safe (size - 1) pieces := by
  have hloop := vsnprintfLoop_iff (size - 1) pieces more []
  rw [List.nil_append, List.length_nil, Nat.sub_zero] at hloop
  rw [← hloop, Faithful, vsnprintf, if_neg (by omega)]
  constructor
  · intro h
    obtain ⟨out, hout, heq⟩ := Option.map_eq_some_iff.mp h
    have hbuf := congrArg Formatted.buf heq
    rw [List.append_cancel_right hbuf] at hout
    exact hout
  · intro h
    exact Option.map_eq_some_iff.mpr ⟨_, h, rfl⟩

/-- `"%x:%d%%%llu"`, where the buffer is full before the last conversion. -/
theorem vsnprintf_faithful_cut :
    Faithful 8 [.x 48879#32, .text ':' (by decide), .d (-42#32), .percent, .llu 7#64] [] :=
  (vsnprintf_faithful_iff 8 _ [] (by decide)).mpr (by decide +kernel)

/-- `"size=%llu"`, of which `printk` makes `size=lu`. -/
theorem vsnprintf_not_faithful : ¬ ∀ size pieces more, 1 ≤ size → Faithful size pieces more := by
  intro hall
  have h := hall 256 [.text 's' (by decide), .text '=' (by decide), .llu 4096#64] [] (by decide)
  have hcode : vsnprintf 256
      (format [.text 's' (by decide), .text '=' (by decide), .llu 4096#64]) [.word 4096#64] =
      some ⟨"s=lu\x00".toList, 4⟩ := by decide +kernel
  rw [Faithful] at h
  have hret := congrArg (Option.map Formatted.ret) (hcode.symm.trans h)
  exact absurd hret (by decide)

end OSCompas.Print
