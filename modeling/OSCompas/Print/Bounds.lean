import OSCompas.Print.Vsnprintf
import OSCompas.Lib.Chunks

/-!
# Where `vsnprintf` writes (`lab3-1-sparrowos-memory-module/kernel/print.c`)

The loop of `vsnprintf` looks for room once a round.  `%p` and unknown conversions store two
characters in a round.  A `%` at the end of the format is an unknown conversion: `%` and the zero
are stored, and the scan goes on in the memory behind the format.

* `VaList` — the words that `va_arg` takes, and the strings at addresses;
* `convert`, `vsnprintfLoop`, `vsnprintf` — the formatter with every place it writes;
* `printk`, `printkLevel` — its callers with a buffer of 256 bytes;
* `chunks`, `ends` — a format as chunks of text, without a buffer;
* `Inside` — the property.

Principal results: `vsnprintfLoop_eq` and `stays_inside_iff`.
-/

set_option autoImplicit false

namespace OSCompas.Print.Bounds

open Chunks

/-! ## Arguments -/

/-- The words that `va_arg` takes one after the other, and what lies at an address. -/
structure VaList where
  word : Nat → BitVec 64
  str : BitVec 64 → CString

namespace VaList

/-- `va_arg(args, uint64_t)` and `va_arg(args, void *)`. -/
def first (args : VaList) : BitVec 64 := args.word 0

/-- `va_arg(args, int)` and `va_arg(args, unsigned int)`. -/
def int (args : VaList) : BitVec 32 := args.first.setWidth 32

/-- `va_arg(args, const char *)`, and `"(null)"` for a null pointer. -/
def text (args : VaList) : List Char :=
  if args.first = 0 then "(null)".toList else (args.str args.first).chars

/-- The arguments after the next one. -/
def next (args : VaList) : VaList := { args with word := fun n => args.word (n + 1) }

/-- Null pointers. -/
def nulls : VaList := ⟨fun _ => 0, fun _ => ⟨[], by simp⟩⟩

end VaList

/-! ## The formatter -/

/-- The cases of the `switch` other than `l`. -/
def convert (bufEnd : Nat) (c : Char) (args : VaList) (b : Buffer Char) : VaList × Buffer Char :=
  match c with
  | 'd' | 'i' =>
    let val := args.int
    let (b, val) := if val.slt 0#32 then (b.put '-', -val) else (b, val)
    (args.next, b.copy bufEnd (intLoop 19 val []))
  | 'u' => (args.next, b.copy bufEnd (decLoop 19 args.int.toNat))
  | 'x' => (args.next, b.copy bufEnd (hexLoop 19 args.int.toNat []))
  | 'p' => (args.next, ((b.put '0').put 'x').copy bufEnd (hexLoop 19 args.first.toNat []))
  | 'c' => (args.next, b.put (Char.ofNat (args.int.toNat % 256)))
  | 's' => (args.next, b.copy bufEnd args.text)
  | '%' => (args, b.put '%')
  | c => (args, (b.put '%').put c)

/-- The loop of `vsnprintf` over the memory from the format on; nothing when it reads past it. -/
def vsnprintfLoop (bufEnd : Nat) : List Char → VaList → Buffer Char → Option (Buffer Char)
  | [], _, _ => none
  | c :: fmt, args, b =>
    if c = '\x00' ∨ bufEnd ≤ b.ptr then some b
    else if c ≠ '%' then vsnprintfLoop bufEnd fmt args (b.put c)
    else
      match fmt with
      | [] => none
      | 'l' :: 'l' :: 'x' :: fmt =>
        vsnprintfLoop bufEnd fmt args.next (b.copy bufEnd (hexLoop 19 args.first.toNat []))
      | 'l' :: fmt => vsnprintfLoop bufEnd fmt args b
      | c :: fmt =>
        let (args, b) := convert bufEnd c args b
        vsnprintfLoop bufEnd fmt args b

/-- What was written where, and how far the text goes. -/
structure Written where
  writes : List (Nat × Char)
  ptr : Nat
  deriving DecidableEq, Repr

/-- The `int` that is returned. -/
def Written.ret (w : Written) : Int := (BitVec.ofNat 32 w.ptr).toInt

/-- The character at an index of the buffer. -/
def Written.at? (w : Written) (i : Nat) : Option Char :=
  (w.writes.filter (·.1 = i)).getLast?.map Prod.snd

/-- The memory from the format on: its zero, and what lies behind. -/
def memory (fmt : CString) (behind : List Char) : List Char := fmt.chars ++ '\x00' :: behind

/-- `*ptr = '\0'; return ptr - buf;` -/
def finish (b : Buffer Char) : Written := ⟨b.writes ++ [(b.ptr, '\x00')], b.ptr⟩

/-- `vsnprintf`, with `behind` in the memory behind the format. -/
def vsnprintf (size : Nat) (fmt : CString) (behind : List Char) (args : VaList) : Option Written :=
  if size = 0 then some ⟨[], 0⟩
  else (vsnprintfLoop (size - 1) (memory fmt behind) args .empty).map finish

/-! ## Its callers -/

/-- `putchar`: what is sent. -/
def putchar (c : Char) : List Char := if c = '\n' then ['\n', '\r'] else [c]

/-- `puts`. -/
def puts (s : List Char) : List Char := s.flatMap putchar

/-- `for (int i = 0; i < len; i++) putchar(buffer[i]);` -/
def putBuffer (w : Written) : List Char :=
  puts ((List.range w.ret.toNat).filterMap w.at?)

/-- `printk`: the buffer, and what is sent. -/
def printk (fmt : CString) (behind : List Char) (args : VaList) : Option (Written × List Char) :=
  (vsnprintf 256 fmt behind args).map fun w => (w, putBuffer w)

def LOG_INFO : UInt32 := 1

/-- `current_log_level`, which is not assigned. -/
def currentLogLevel : UInt32 := LOG_INFO

/-- The prefix of a level. -/
def levelStr (level : UInt32) : List Char :=
  if level = 0 then "[DEBUG] ".toList
  else if level = 1 then "[INFO]  ".toList
  else if level = 2 then "[WARN]  ".toList
  else if level = 3 then "[ERROR] ".toList
  else if level = 4 then "[CRIT]  ".toList
  else "[UNKN]  ".toList

/-- `printk_level`: the buffer if there is one, and what is sent. -/
def printkLevel (level : UInt32) (fmt : CString) (behind : List Char) (args : VaList) :
    Option (Option Written × List Char) :=
  if level < currentLogLevel then some (none, [])
  else (vsnprintf 256 fmt behind args).map fun w =>
    (some w, puts (levelStr level) ++ putBuffer w)

/-! ## The property -/

/-- Every write is below `size`, the last one stores the zero behind the text, and what is returned
is below `size`. -/
structure Inside (size : Nat) (w : Written) : Prop where
  writes : ∀ x ∈ w.writes, x.1 < size
  terminated : w.writes.getLast? = some (w.ptr, '\x00')
  ret : w.ret < size

/-- The call returns and stays inside its buffer. -/
def StaysInside (size : Nat) (fmt : CString) (behind : List Char) (args : VaList) : Prop :=
  ∃ w, vsnprintf size fmt behind args = some w ∧ Inside size w

/-! ## The format as chunks of text -/

/-- What a conversion other than `l` makes of its argument. -/
def chunk (c : Char) (args : VaList) : Chunk Char :=
  match c with
  | 'd' | 'i' =>
    if args.int.slt 0#32 then ⟨['-'], intLoop 19 (-args.int) []⟩ else ⟨[], intLoop 19 args.int []⟩
  | 'u' => ⟨[], decLoop 19 args.int.toNat⟩
  | 'x' => ⟨[], hexLoop 19 args.int.toNat []⟩
  | 'p' => ⟨['0', 'x'], hexLoop 19 args.first.toNat []⟩
  | 'c' => ⟨[Char.ofNat (args.int.toNat % 256)], []⟩
  | 's' => ⟨[], args.text⟩
  | '%' => ⟨['%'], []⟩
  | c => ⟨['%', c], []⟩

/-- The arguments after it. -/
def after (c : Char) (args : VaList) : VaList :=
  match c with
  | 'd' | 'i' | 'u' | 'x' | 'p' | 'c' | 's' => args.next
  | _ => args

/-- The chunks of a format. -/
def chunks : List Char → VaList → List (Chunk Char)
  | [], _ => []
  | c :: fmt, args =>
    if c = '\x00' then []
    else if c ≠ '%' then ⟨[c], []⟩ :: chunks fmt args
    else
      match fmt with
      | [] => [⟨[], []⟩]
      | 'l' :: 'l' :: 'x' :: fmt => ⟨[], hexLoop 19 args.first.toNat []⟩ :: chunks fmt args.next
      | 'l' :: fmt => ⟨[], []⟩ :: chunks fmt args
      | c :: fmt => chunk c args :: chunks fmt (after c args)

/-- The scan comes to a zero. -/
def ends : List Char → Bool
  | [] => false
  | c :: fmt =>
    if c = '\x00' then true
    else if c ≠ '%' then ends fmt
    else
      match fmt with
      | [] => false
      | 'l' :: 'l' :: 'x' :: fmt => ends fmt
      | 'l' :: fmt => ends fmt
      | _ :: fmt => ends fmt

/-- The scan of a format comes to a `%` with nothing behind it. -/
def lone : List Char → Bool
  | [] => false
  | c :: fmt =>
    if c ≠ '%' then lone fmt
    else
      match fmt with
      | [] => true
      | 'l' :: 'l' :: 'x' :: fmt => lone fmt
      | 'l' :: fmt => lone fmt
      | _ :: fmt => lone fmt

/-- Nowhere are two characters forced when the text has `size - 2`. -/
def NoStraddle (size : Nat) (ks : List (Chunk Char)) : Prop :=
  ∀ i : Fin ks.length, ks[i].forced.length = 2 → total (ks.take i) + 2 ≠ size

/-- A format and its arguments with which the formatter stays inside a buffer. -/
def FitsIn (size : Nat) (fmt : CString) (behind : List Char) (args : VaList) : Prop :=
  NoStraddle size (chunks (memory fmt behind) args) ∧
    Ends (size - 1) (ends (memory fmt behind)) 0 (chunks (memory fmt behind) args)

variable {bufEnd size : Nat} {c : Char} {fmt : List Char} {args : VaList} {b b' : Buffer Char}

theorem convert_eq (bufEnd : Nat) (c : Char) (args : VaList) (b : Buffer Char) :
    convert bufEnd c args b = (after c args, (chunk c args).store bufEnd b) := by
  unfold convert chunk after
  split
  · dsimp only
    split
    · rfl
    · rfl
  · dsimp only
    split
    · rfl
    · rfl
  · rfl
  · rfl
  · rfl
  · rfl
  · rfl
  · rfl
  · simp [Chunk.store, Buffer.copy]

/-! ## The turns of the scan -/

theorem chunks_zero (fmt : List Char) (args : VaList) :
    chunks ('\x00' :: fmt) args = [] ∧ ends ('\x00' :: fmt) = true := by
  rw [chunks.eq_def, ends.eq_def]
  simp

theorem chunks_char (fmt : List Char) (args : VaList) (h0 : c ≠ '\x00') (hc : c ≠ '%') :
    chunks (c :: fmt) args = ⟨[c], []⟩ :: chunks fmt args ∧ ends (c :: fmt) = ends fmt := by
  rw [chunks.eq_def, ends.eq_def]
  simp [h0, hc]

theorem chunks_percent (args : VaList) : chunks ['%'] args = [⟨[], []⟩] ∧ ends ['%'] = false := by
  rw [chunks.eq_def, ends.eq_def]
  simp

theorem chunks_llx (fmt : List Char) (args : VaList) :
    chunks ('%' :: 'l' :: 'l' :: 'x' :: fmt) args =
      ⟨[], hexLoop 19 args.first.toNat []⟩ :: chunks fmt args.next ∧
    ends ('%' :: 'l' :: 'l' :: 'x' :: fmt) = ends fmt := by
  rw [chunks.eq_def, ends.eq_def]
  simp

theorem chunks_l (args : VaList) (hllx : ∀ rest, fmt = 'l' :: 'x' :: rest → False) :
    chunks ('%' :: 'l' :: fmt) args = ⟨[], []⟩ :: chunks fmt args ∧
    ends ('%' :: 'l' :: fmt) = ends fmt := by
  rw [chunks.eq_def, ends.eq_def]
  simp

theorem chunks_convert (fmt : List Char) (args : VaList) (hl : c = 'l' → False) :
    chunks ('%' :: c :: fmt) args = chunk c args :: chunks fmt (after c args) ∧
    ends ('%' :: c :: fmt) = ends fmt := by
  refine ⟨?_, ?_⟩
  · rw [chunks, if_neg (by simp), if_neg (by simp)]
    · exact fun _ h => absurd h hl
    · exact hl
  · rw [ends, if_neg (by simp), if_neg (by simp)]
    · exact fun _ h => absurd h hl
    · exact hl

/-- The zero of a format does not make an `l` into `llx`. -/
theorem not_llx {behind : List Char} (hllx : ∀ rest, fmt = 'l' :: 'x' :: rest → False) :
    ∀ rest, fmt ++ '\x00' :: behind = 'l' :: 'x' :: rest → False := by
  intro rest he
  match fmt, hllx, he with
  | [], _, he => simp at he
  | [a], _, he => simp at he
  | a :: a' :: fmt, hllx, he =>
    simp only [List.cons_append, List.cons.injEq] at he
    exact hllx fmt (by rw [he.1, he.2.1])

/-- **Without a `%` at its end** a format is scanned to its zero. -/
theorem ends_of_not_lone (h : lone fmt = false) (h0 : '\x00' ∉ fmt) (behind : List Char) :
    ends (fmt ++ '\x00' :: behind) = true := by
  fun_induction lone fmt with
  | case1 => exact (chunks_zero _ .nulls).2
  | case2 c fmt hc ih =>
    obtain ⟨hc0, h0⟩ := not_or.mp (mt List.mem_cons.mpr h0)
    exact (chunks_char _ .nulls (Ne.symm hc0) hc).2.trans (ih h h0)
  | case3 => cases h
  | case4 c hc fmt ih =>
    obtain rfl : c = '%' := not_not.mp hc
    exact (chunks_llx _ .nulls).2.trans (ih h fun hmem => h0 (by simp [hmem]))
  | case5 c hc fmt hllx ih =>
    obtain rfl : c = '%' := not_not.mp hc
    exact (chunks_l .nulls (not_llx hllx)).2.trans (ih h fun hmem => h0 (by simp [hmem]))
  | case6 c hc c' fmt hllx hl ih =>
    obtain rfl : c = '%' := not_not.mp hc
    exact (chunks_convert _ .nulls hl).2.trans (ih h fun hmem => h0 (by simp [hmem]))

/-- Only a zero makes no chunk. -/
theorem chunks_ne_nil (fmt : List Char) (args : VaList) (h0 : c ≠ '\x00') :
    ∃ k ks, chunks (c :: fmt) args = k :: ks := by
  by_cases hc : c = '%'
  · subst hc
    cases fmt with
    | nil => exact ⟨_, _, (chunks_percent args).1⟩
    | cons c fmt =>
      by_cases hl : c = 'l'
      · subst hl
        by_cases hllx : ∃ rest, fmt = 'l' :: 'x' :: rest
        · obtain ⟨rest, rfl⟩ := hllx
          exact ⟨_, _, (chunks_llx rest args).1⟩
        · exact ⟨_, _, (chunks_l args fun rest h => hllx ⟨rest, h⟩).1⟩
      · exact ⟨_, _, (chunks_convert fmt args hl).1⟩
  · exact ⟨_, _, (chunks_char fmt args h0 hc).1⟩

/-- A round of the scan, with room. -/
theorem storeAll_turn {fmt' : List Char} {args' : VaList} {k : Chunk Char}
    (hroom : ¬ bufEnd ≤ b.ptr)
    (hscan : chunks fmt args = k :: chunks fmt' args' ∧ ends fmt = ends fmt') :
    storeAll bufEnd (ends fmt) (chunks fmt args) b =
      storeAll bufEnd (ends fmt') (chunks fmt' args') (k.store bufEnd b) := by
  rw [hscan.1, hscan.2, storeAll, if_neg hroom]

/-- **The loop stores the chunks of the format.** -/
theorem vsnprintfLoop_eq (bufEnd : Nat) (fmt : List Char) (args : VaList) (b : Buffer Char) :
    vsnprintfLoop bufEnd fmt args b = storeAll bufEnd (ends fmt) (chunks fmt args) b := by
  fun_induction vsnprintfLoop bufEnd fmt args b with
  | case1 args b => rfl
  | case2 c fmt args b hstop =>
    by_cases h0 : c = '\x00'
    · subst h0
      rw [(chunks_zero fmt args).1, (chunks_zero fmt args).2]
      rfl
    · obtain ⟨k, ks, hks⟩ := chunks_ne_nil fmt args h0
      rw [hks, storeAll, if_pos (hstop.resolve_left h0)]
  | case3 c fmt args b hgo hc ih =>
    obtain ⟨h0, hroom⟩ := not_or.mp hgo
    rw [ih, storeAll_turn hroom (chunks_char fmt args h0 hc)]
    rfl
  | case4 c args b hgo hc =>
    obtain rfl : c = '%' := not_not.mp hc
    obtain ⟨hchunks, hends⟩ := chunks_percent args
    rw [hchunks, hends, storeAll, if_neg (not_or.mp hgo).2]
    rfl
  | case5 c args b hgo hc fmt ih =>
    obtain rfl : c = '%' := not_not.mp hc
    rw [ih, storeAll_turn (not_or.mp hgo).2 (chunks_llx fmt args)]
    rfl
  | case6 c args b hgo hc fmt hllx ih =>
    obtain rfl : c = '%' := not_not.mp hc
    rw [ih, storeAll_turn (not_or.mp hgo).2 (chunks_l args hllx)]
    rfl
  | case7 c args b hgo hc c' fmt hllx hl args' b' hconv ih =>
    obtain rfl : c = '%' := not_not.mp hc
    rw [convert_eq] at hconv
    obtain ⟨rfl, rfl⟩ := Prod.mk.inj hconv
    rw [ih, storeAll_turn (not_or.mp hgo).2 (chunks_convert fmt args hl)]

/-! ## The formatter as a text -/

/-- The words and strings of a list of arguments. -/
def Reads : VaList → List Arg → Prop
  | _, [] => True
  | v, .word w :: rest => v.first = w ∧ Reads v.next rest
  | v, .str s :: rest => v.first ≠ 0 ∧ v.str v.first = s ∧ Reads v.next rest

variable {rest rest' : List Arg} {v v' : VaList} {out out' str behind : List Char}

theorem puts_put (out : List Char) (c : Char) :
    (Buffer.empty.puts out).put c = Buffer.empty.puts (out ++ [c]) := by
  simp [Buffer.puts]

theorem puts_empty_ptr (out : List Char) :
    (Buffer.empty.puts out : Buffer Char).ptr = out.length := by
  rw [puts_ptr]
  exact Nat.zero_add _

theorem puts_text (b : Buffer Char) (cs : List Char) :
    (b.puts cs).writes.map Prod.snd = b.writes.map Prod.snd ++ cs := by
  induction cs generalizing b with
  | nil => simp
  | cons c cs ih => simp [ih, Buffer.put]

theorem puts_copy (bufEnd : Nat) (str out : List Char) : (Buffer.empty.puts out).copy bufEnd str =
    Buffer.empty.puts (copyWhile bufEnd str out) := by
  induction str generalizing out with
  | nil => rfl
  | cons c str ih =>
    rw [Buffer.copy, copyWhile, puts_empty_ptr, puts_put, ih]
    split <;> rfl

theorem Reads.int {val : BitVec 32} (h : Reads v rest) (hva : vaInt rest = some (val, rest')) :
    v.int = val ∧ Reads v.next rest' := by
  match rest, h, hva with
  | .word w :: rest, h, hva =>
    obtain ⟨rfl, rfl⟩ := Prod.mk.inj (Option.some.inj hva)
    exact ⟨congrArg (BitVec.setWidth 32) h.1, h.2⟩

theorem Reads.word {val : BitVec 64} (h : Reads v rest) (hva : vaWord rest = some (val, rest')) :
    v.first = val ∧ Reads v.next rest' := by
  match rest, h, hva with
  | .word w :: rest, h, hva =>
    obtain ⟨rfl, rfl⟩ := Prod.mk.inj (Option.some.inj hva)
    exact h

theorem Reads.text (h : Reads v rest) (hva : vaStr rest = some (str, rest')) :
    v.text = str ∧ Reads v.next rest' := by
  match rest, h, hva with
  | .word w :: rest, h, hva =>
    rw [vaStr] at hva
    by_cases hw : w = 0
    · rw [if_pos hw] at hva
      obtain ⟨rfl, rfl⟩ := Prod.mk.inj (Option.some.inj hva)
      exact ⟨if_pos (h.1.trans hw), h.2⟩
    · rw [if_neg hw] at hva
      cases hva
  | .str s :: rest, h, hva =>
    obtain ⟨rfl, rfl⟩ := Prod.mk.inj (Option.some.inj hva)
    exact ⟨(if_neg h.1).trans (congrArg CString.chars h.2.1), h.2.2⟩

/-- A conversion stores the same text. -/
theorem convert_reads (h : Reads v rest)
    (hconv : Print.convert bufEnd c rest out = some (rest', out')) :
    (convert bufEnd c v (Buffer.empty.puts out)).2 = Buffer.empty.puts out' ∧
      Reads (convert bufEnd c v (Buffer.empty.puts out)).1 rest' := by
  unfold Print.convert at hconv
  split at hconv
  all_goals try simp only [Option.bind_eq_bind, Option.bind_eq_some_iff, Option.pure_def,
    Option.some.injEq, Prod.mk.injEq, Prod.exists] at hconv
  · obtain ⟨val, _, hva, rfl, rfl⟩ := hconv
    obtain ⟨rfl, hreads⟩ := h.int hva
    refine ⟨?_, hreads⟩
    cases hneg : v.int.slt 0#32 <;> simp [convert, hneg, puts_put, puts_copy]
  · obtain ⟨val, _, hva, rfl, rfl⟩ := hconv
    obtain ⟨rfl, hreads⟩ := h.int hva
    refine ⟨?_, hreads⟩
    cases hneg : v.int.slt 0#32 <;> simp [convert, hneg, puts_put, puts_copy]
  · obtain ⟨val, _, hva, rfl, rfl⟩ := hconv
    obtain ⟨rfl, hreads⟩ := h.int hva
    exact ⟨puts_copy _ _ _, hreads⟩
  · obtain ⟨val, _, hva, rfl, rfl⟩ := hconv
    obtain ⟨rfl, hreads⟩ := h.int hva
    exact ⟨puts_copy _ _ _, hreads⟩
  · obtain ⟨val, _, hva, rfl, rfl⟩ := hconv
    obtain ⟨rfl, hreads⟩ := h.word hva
    refine ⟨?_, hreads⟩
    simp [convert, puts_put, puts_copy]
  · obtain ⟨val, _, hva, rfl, rfl⟩ := hconv
    obtain ⟨rfl, hreads⟩ := h.int hva
    exact ⟨puts_put _ _, hreads⟩
  · obtain ⟨str, _, hva, rfl, rfl⟩ := hconv
    obtain ⟨rfl, hreads⟩ := h.text hva
    exact ⟨puts_copy _ _ _, hreads⟩
  · obtain ⟨rfl, rfl⟩ := hconv
    exact ⟨puts_put _ _, h⟩
  · obtain ⟨rfl, rfl⟩ := hconv
    simpa [convert, puts_put] using h

/-- A round of the loop, with room. -/
theorem vsnprintfLoop_turn {fmt' : List Char} {k : Chunk Char} (hroom : ¬ bufEnd ≤ out.length)
    (hscan : chunks fmt v = k :: chunks fmt' v' ∧ ends fmt = ends fmt')
    (hstore : k.store bufEnd (Buffer.empty.puts out) = Buffer.empty.puts out') :
    vsnprintfLoop bufEnd fmt v (Buffer.empty.puts out) =
      vsnprintfLoop bufEnd fmt' v' (Buffer.empty.puts out') := by
  have hptr : ¬ bufEnd ≤ (Buffer.empty.puts out : Buffer Char).ptr := by
    rw [puts_empty_ptr]
    exact hroom
  rw [vsnprintfLoop_eq, vsnprintfLoop_eq, storeAll_turn hptr hscan, hstore]

/-- **The loop stores the same text.** -/
theorem vsnprintfLoop_reads (h : Reads v rest) (h0 : '\x00' ∉ fmt) (behind : List Char)
    (hloop : Print.vsnprintfLoop bufEnd fmt rest out = some out') :
    vsnprintfLoop bufEnd (fmt ++ '\x00' :: behind) v (Buffer.empty.puts out) =
      some (Buffer.empty.puts out') := by
  fun_induction Print.vsnprintfLoop bufEnd fmt rest out generalizing v with
  | case1 rest out =>
    obtain rfl := Option.some.inj hloop
    rw [List.nil_append, vsnprintfLoop.eq_def]
    exact if_pos (.inl rfl)
  | case2 c fmt rest out hfull =>
    obtain rfl := Option.some.inj hloop
    rw [List.cons_append, vsnprintfLoop.eq_def]
    exact if_pos (.inr (by rwa [puts_empty_ptr]))
  | case3 c fmt rest out hroom hc ih =>
    obtain ⟨hc0, h0⟩ := not_or.mp (mt List.mem_cons.mpr h0)
    rw [List.cons_append,
      vsnprintfLoop_turn hroom (chunks_char _ v (Ne.symm hc0) hc) (puts_put _ _)]
    exact ih h h0 hloop
  | case4 c rest out hroom hc => cases hloop
  | case5 c rest out hroom hc fmt hva => cases hloop
  | case6 c rest out hroom hc fmt val rest' hva ih =>
    obtain rfl : c = '%' := not_not.mp hc
    obtain ⟨rfl, hreads⟩ := h.word hva
    rw [show ('%' :: 'l' :: 'l' :: 'x' :: fmt) ++ '\x00' :: behind =
        '%' :: 'l' :: 'l' :: 'x' :: (fmt ++ '\x00' :: behind) from rfl,
      vsnprintfLoop_turn hroom (chunks_llx _ v) (puts_copy _ _ _)]
    exact ih hreads (fun hmem => h0 (by simp [hmem])) hloop
  | case7 c rest out hroom hc fmt hllx ih =>
    obtain rfl : c = '%' := not_not.mp hc
    rw [show ('%' :: 'l' :: fmt) ++ '\x00' :: behind =
        '%' :: 'l' :: (fmt ++ '\x00' :: behind) from rfl,
      vsnprintfLoop_turn hroom (chunks_l v (not_llx hllx)) rfl]
    exact ih h (fun hmem => h0 (by simp [hmem])) hloop
  | case8 c rest out hroom hc c' fmt hllx hl hconv => cases hloop
  | case9 c rest out hroom hc c' fmt hllx hl rest' out' hconv ih =>
    obtain rfl : c = '%' := not_not.mp hc
    obtain ⟨hstore, hreads⟩ := convert_reads h hconv
    rw [convert_eq] at hstore hreads
    rw [show ('%' :: c' :: fmt) ++ '\x00' :: behind =
        '%' :: c' :: (fmt ++ '\x00' :: behind) from rfl,
      vsnprintfLoop_turn hroom (chunks_convert _ v hl) hstore]
    exact ih hreads (fun hmem => h0 (by simp [hmem])) hloop

/-- **The formatter with every place it writes** stores the text of the one without. -/
theorem vsnprintf_reads {fmt : CString} {r : Formatted} (h : Reads v rest) (behind : List Char)
    (hr : Print.vsnprintf size fmt rest = some r) : ∃ w, vsnprintf size fmt behind v = some w ∧
      w.writes.map Prod.snd = r.buf ∧ w.ptr = r.ret := by
  unfold Print.vsnprintf at hr
  unfold vsnprintf
  split at hr
  · rename_i hzero
    rw [if_pos hzero]
    obtain rfl := Option.some.inj hr
    exact ⟨_, rfl, rfl, rfl⟩
  · rename_i hsize
    obtain ⟨out, hout, rfl⟩ := Option.map_eq_some_iff.mp hr
    have hloop := vsnprintfLoop_reads h fmt.nul_free behind hout
    refine ⟨finish (Buffer.empty.puts out), ?_, ?_, puts_empty_ptr out⟩
    · rw [if_neg hsize]
      exact congrArg (Option.map finish) hloop
    · simp [finish, puts_text, Buffer.empty]

/-! ## What is forced -/

/-- `%p` and unknown conversions force two characters. -/
theorem chunk_forced_two_iff :
    (chunk c args).forced.length = 2 ↔ c ∉ ['d', 'i', 'u', 'x', 'c', 's', '%'] := by
  unfold chunk
  split
  · split <;> simp
  · split <;> simp
  · simp
  · simp
  · simp
  · simp
  · simp
  · simp
  · simp_all

theorem chunk_forced_le : (chunk c args).forced.length ≤ 2 := by
  unfold chunk
  split
  · split <;> simp
  · split <;> simp
  all_goals simp

/-- No chunk forces more than two. -/
theorem forced_le (fmt : List Char) (args : VaList) :
    ∀ k ∈ chunks fmt args, k.forced.length ≤ 2 := by
  fun_induction chunks fmt args with
  | case1 => simp
  | case2 => simp
  | case3 c fmt args h0 hc ih => simpa using ih
  | case4 => simp
  | case5 c args h0 hc fmt ih => simpa using ih
  | case6 c args h0 hc fmt hllx ih => simpa using ih
  | case7 c args h0 hc c' fmt hllx hl ih => simpa using ⟨chunk_forced_le, ih⟩

/-- With two at most only one place is wrong. -/
theorem noOverrun_iff (hsize : 1 ≤ size) {ks : List (Chunk Char)}
    (h : ∀ k ∈ ks, k.forced.length ≤ 2) : NoOverrun (size - 1) 0 ks ↔ NoStraddle size ks := by
  unfold NoOverrun NoStraddle
  refine forall_congr' fun i => ?_
  have hle : ks[i].forced.length ≤ 2 := h _ (List.getElem_mem _)
  omega

/-! ## The buffer -/

theorem ret_le (w : Written) : w.ret ≤ w.ptr := by
  rw [Written.ret, BitVec.toInt_eq_toNat_cond, BitVec.toNat_ofNat]
  split <;> omega

theorem inside_finish_iff (hsize : 1 ≤ size) (hb : b.Ordered) :
    Inside size (finish b) ↔ b.ptr ≤ size - 1 := by
  constructor
  · intro h
    have hlast := h.writes (b.ptr, '\x00') (by simp [finish])
    omega
  · intro h
    have hret := ret_le (finish b)
    have hptr : (finish b).ptr = b.ptr := rfl
    refine ⟨?_, by simp [finish], by omega⟩
    intro x hx
    rcases List.mem_append.mp hx with hx | hx
    · exact (hb.lt_iff size).mpr (by omega) x hx
    · rw [List.mem_singleton.mp hx]
      show b.ptr < size
      omega

/-- **The formatter stays inside its buffer** just if the format and its arguments fit. -/
theorem staysInside_iff (hsize : 1 ≤ size) (fmt : CString) (behind : List Char) (args : VaList) :
    StaysInside size fmt behind args ↔ FitsIn size fmt behind args := by
  have hall := storeAll_within_iff (b := .empty) (ends (memory fmt behind))
    (chunks (memory fmt behind) args) (show 0 = min 0 (size - 1) by omega)
  rw [fits_iff, noOverrun_iff hsize (forced_le _ args)] at hall
  unfold FitsIn
  rw [← hall, StaysInside, vsnprintf, if_neg (by omega), vsnprintfLoop_eq]
  constructor
  · rintro ⟨w, hw, hin⟩
    obtain ⟨b, hb, rfl⟩ := Option.map_eq_some_iff.mp hw
    exact ⟨b, hb, (inside_finish_iff hsize (ordered_empty.storeAll hb)).mp hin⟩
  · rintro ⟨b, hb, hle⟩
    refine ⟨finish b, ?_, (inside_finish_iff hsize (ordered_empty.storeAll hb)).mpr hle⟩
    rw [hb, Option.map_some]

/-- **`vsnprintf`, `printk` and `printk_level` stay inside their buffers** just if no `%p`, unknown
conversion or `%` at the end of the format begins when the text has two characters less than the
buffer, and the scan ends. -/
theorem stays_inside_iff (hsize : 1 ≤ size) (fmt : CString) (behind : List Char) (args : VaList) :
    (StaysInside size fmt behind args ↔ FitsIn size fmt behind args) ∧
    ((∃ w sent, printk fmt behind args = some (w, sent) ∧ Inside 256 w) ↔
      FitsIn 256 fmt behind args) ∧
    ∀ level, (∃ w sent, printkLevel level fmt behind args = some (w, sent) ∧
        ∀ x ∈ w, Inside 256 x) ↔
      level < currentLogLevel ∨ FitsIn 256 fmt behind args := by
  have h256 := staysInside_iff (show 1 ≤ 256 by omega) fmt behind args
  refine ⟨staysInside_iff hsize fmt behind args, ?_, fun level => ?_⟩
  · rw [← h256]
    constructor
    · rintro ⟨w, sent, hw, hin⟩
      obtain ⟨w', hw', he⟩ := Option.map_eq_some_iff.mp hw
      obtain ⟨rfl, -⟩ := Prod.mk.inj he
      exact ⟨w', hw', hin⟩
    · rintro ⟨w, hw, hin⟩
      refine ⟨w, putBuffer w, ?_, hin⟩
      rw [printk, hw, Option.map_some]
  · rw [← h256, printkLevel]
    by_cases hlevel : level < currentLogLevel
    · rw [if_pos hlevel]
      exact ⟨fun _ => .inl hlevel, fun _ => ⟨none, [], rfl, by simp⟩⟩
    · rw [if_neg hlevel, or_iff_right hlevel]
      constructor
      · rintro ⟨w, sent, hw, hin⟩
        obtain ⟨w', hw', he⟩ := Option.map_eq_some_iff.mp hw
        obtain ⟨rfl, -⟩ := Prod.mk.inj he
        exact ⟨w', hw', hin w' rfl⟩
      · rintro ⟨w, hw, hin⟩
        refine ⟨some w, puts (levelStr level) ++ putBuffer w, ?_, ?_⟩
        · rw [hw, Option.map_some]
        · rintro x ⟨⟩
          exact hin

/-- `"%s!"`. -/
def shout : CString := ⟨['%', 's', '!'], by simp⟩

theorem stays_inside_iff_shout : StaysInside 8 shout [] .nulls := by
  refine (stays_inside_iff (by omega) shout [] .nulls).1.mpr ⟨?_, ?_⟩
  · unfold NoStraddle
    decide
  · exact .inl rfl

/-- `"%p"`. -/
def pointer : CString := ⟨['%', 'p'], by simp⟩

/-- With two bytes of room `%p` leaves the zero in the third. -/
theorem writes_behind : ¬ ∀ (size : Nat) (fmt : CString) (behind : List Char) (args : VaList),
    1 ≤ size → StaysInside size fmt behind args := by
  intro hall
  obtain ⟨w, hw, hin⟩ := hall 2 pointer [] .nulls (by omega)
  have hwrites : vsnprintf 2 pointer [] .nulls =
      some ⟨[(0, '0'), (1, 'x'), (2, '\x00')], 2⟩ := by decide
  rw [hwrites] at hw
  obtain rfl := Option.some.inj hw
  have hlast := hin.writes (2, '\x00') (by simp)
  omega

end OSCompas.Print.Bounds
