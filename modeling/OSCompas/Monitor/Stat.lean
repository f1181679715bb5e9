import OSCompas.Lib.Awk
import OSCompas.Strace.Parser

/-!
# The readers of /proc/PID/stat

The kernel prints what it knows of a process as one line, the name in parentheses as its second
field (`docs/theory.md`, 2.3.2).  Three programs pick fields out of that line by their place in it:
`analyze_process_details` of `proc_analyzer.py`, and `get_proc_info` and `calculate_cpu_usage` of
`process_monitor.sh`.  A name may have blanks in it, and then every later field stands further back.

* `Stat`, `Stat.text` — what the kernel prints;
* `analyzeProcessDetails`, `getProcInfo`, `pidTime` — the readers;
* `ReadRight` — each has read the fields that the kernel printed.

Principal result: `readRight_iff`.
-/

set_option autoImplicit false

namespace OSCompas.Monitor

open OSCompas.Words OSCompas.Awk
open OSCompas.Strace (universalNewlines)

/-! ## The line -/

/-- CPU time in hundredths of a second: the kernel counts nanoseconds in 64 bits. -/
abbrev Ticks := Fin (2 ^ 64 / 10 ^ 7 + 1)

/-- A process as its `stat` shows it; `more` is what follows the start time. -/
structure Stat where
  pid : ℤ
  comm : List Char
  state : {c : Char // c.isAlpha = true}
  ppid : ℤ
  pgrp : ℤ
  session : ℤ
  ttyNr : ℤ
  tpgid : ℤ
  flags : ℤ
  minflt : ℤ
  cminflt : ℤ
  majflt : ℤ
  cmajflt : ℤ
  utime : Ticks
  stime : Ticks
  cutime : ℤ
  cstime : ℤ
  priority : ℤ
  nice : ℤ
  numThreads : ℤ
  itrealvalue : ℤ
  starttime : ℤ
  more : List ℤ

/-- `%d` -/
def int : ℤ → List Char
  | .ofNat n => Nat.toDigits 10 n
  | .negSucc n => '-' :: Nat.toDigits 10 (n + 1)

def ticks (t : Ticks) : List Char := Nat.toDigits 10 t

namespace Stat

/-- The fields from the state to the user time. -/
def front (s : Stat) : List (List Char) :=
  [[s.state.val], int s.ppid, int s.pgrp, int s.session, int s.ttyNr, int s.tpgid, int s.flags,
    int s.minflt, int s.cminflt, int s.majflt, int s.cmajflt, ticks s.utime]

/-- The fields after the system time. -/
def back (s : Stat) : List (List Char) :=
  [int s.cutime, int s.cstime, int s.priority, int s.nice, int s.numThreads, int s.itrealvalue,
    int s.starttime] ++ s.more.map int

/-- The fields after the name. -/
def fields (s : Stat) : List (List Char) := s.front ++ ticks s.stime :: s.back

/-- `pid (comm) state ppid ...` -/
def line (s : Stat) : List Char :=
  int s.pid ++ ' ' :: ('(' :: s.comm ++ [')']) ++ spaced s.fields

/-- What is read from the file. -/
def text (s : Stat) : List Char := s.line ++ ['\n']

end Stat

/-! ## The readers -/

/-- White space for `str.split()`. -/
def isSpace (c : Char) : Bool :=
  let n := c.toNat
  (0x09 ≤ n ∧ n ≤ 0x0d) ∨ (0x1c ≤ n ∧ n ≤ 0x20) ∨ n = 0x85 ∨ n = 0xa0 ∨ n = 0x1680 ∨
    (0x2000 ≤ n ∧ n ≤ 0x200a) ∨ n = 0x2028 ∨ n = 0x2029 ∨ n = 0x202f ∨ n = 0x205f ∨ n = 0x3000

/-- What `analyze_process_details` prints of the file. -/
structure Details where
  state : List Char
  ppid : List Char
  pgrp : List Char
  utime : List Char
  stime : List Char
  deriving DecidableEq

/-- `stat_data = f.read().split()` and what is done with it. -/
def analyzeProcessDetails (text : List Char) : Option Details :=
  let statData := words isSpace (universalNewlines text)
  if 20 < statData.length then
    some {
      state := statData.getD 2 []
      ppid := statData.getD 3 []
      pgrp := statData.getD 4 []
      utime := statData.getD 13 []
      stime := statData.getD 14 [] }
  else none

/-- `read -r pid comm state ... starttime`: 22 names, of which `utime` and `stime` are printed. -/
def getProcInfo (text : List Char) : List Char × List Char :=
  let vars := deal blank 22 (text.takeWhile (· ≠ '\n'))
  (vars.getD 13 [], vars.getD 14 [])

/-- `$(cat file)` -/
def capture (text : List Char) : List Char := (text.reverse.dropWhile (· = '\n')).reverse

/-- `echo "$stat" | awk '{print $14+$15}'` -/
def awkSum (stat : List Char) : List ℚ :=
  (records (stat ++ ['\n'])).map fun line =>
    double ((field line 14).number + (field line 15).number)

/-- The time that `calculate_cpu_usage` takes from one sample. -/
def pidTime (text : List Char) : List ℚ := awkSum (capture text)

/-- `analyze_process_details` has read what was printed. -/
def DetailsRight (s : Stat) : Prop :=
  ∃ d, analyzeProcessDetails s.text = some d ∧ d.state = [s.state.val] ∧ d.ppid = int s.ppid ∧
    d.utime = ticks s.utime ∧ d.stime = ticks s.stime

/-- `get_proc_info` has. -/
def InfoRight (s : Stat) : Prop := getProcInfo s.text = (ticks s.utime, ticks s.stime)

/-- `calculate_cpu_usage` has. -/
def UsageRight (s : Stat) : Prop := pidTime s.text = [(s.utime.val + s.stime.val : ℚ)]

/-- All three have. -/
structure ReadRight (s : Stat) : Prop where
  details : DetailsRight s
  info : InfoRight s
  usage : UsageRight s

/-! ## Separators -/

/-- A separator is none of the characters that the kernel itself prints in a field. -/
structure Spacing (sep : Char → Bool) : Prop where
  space : sep ' ' = true
  newline : sep '\n' = true
  alphanum : ∀ c, c.isAlphanum = true → sep c = false
  minus : sep '-' = false
  opening : sep '(' = false
  closing : sep ')' = false

theorem spacing_isSpace : Spacing isSpace where
  space := rfl
  newline := rfl
  minus := rfl
  opening := rfl
  closing := rfl
  alphanum c hc := by
    have hranges : c.isAlphanum = (decide (c.val ≥ 65 ∧ c.val ≤ 90) ||
        decide (c.val ≥ 97) && decide (c.val ≤ 122) ||
        decide (c.val ≥ 48) && decide (c.val ≤ 57)) := rfl
    simp only [hranges, Bool.or_eq_true, Bool.and_eq_true, decide_eq_true_eq, ge_iff_le,
      UInt32.le_iff_toNat_le, UInt32.reduceToNat] at hc
    have hval : c.toNat = c.val.toNat := rfl
    simp only [isSpace, hval, decide_eq_false_iff_not]
    omega

theorem spacing_blank : Spacing blank where
  space := rfl
  newline := rfl
  minus := rfl
  opening := rfl
  closing := rfl
  alphanum c hc := by
    simp only [blank, decide_eq_false_iff_not]
    rintro (rfl | rfl | rfl) <;> exact absurd hc (by decide)

/-- What separates for the shell and for awk separates for Python. -/
theorem isSpace_of_blank {c : Char} (h : blank c = true) : isSpace c = true := by
  simp only [blank, decide_eq_true_eq] at h
  rcases h with rfl | rfl | rfl <;> rfl

variable {sep : Char → Bool} {s s' : Stat} {c : Char} {i : Nat}

theorem Spacing.solid_digits (hsep : Spacing sep) (n : ℕ) : Solid sep (Nat.toDigits 10 n) := by
  refine ⟨Nat.toDigits_ne_nil, fun c hc => hsep.alphanum c ?_⟩
  have hdigit : c.isDigit = true := Nat.isDigit_of_mem_toDigits (by decide) (by decide) hc
  simp [Char.isAlphanum, hdigit]

theorem Spacing.solid_int (hsep : Spacing sep) (z : ℤ) : Solid sep (int z) := by
  cases z with
  | ofNat n => exact hsep.solid_digits n
  | negSucc n =>
    refine ⟨List.cons_ne_nil _ _, fun c hc => ?_⟩
    rcases List.mem_cons.mp hc with rfl | hc
    · exact hsep.minus
    · exact (hsep.solid_digits (n + 1)).clean c hc

theorem Spacing.solid_state (hsep : Spacing sep) (s : Stat) : Solid sep [s.state.val] := by
  refine ⟨List.cons_ne_nil _ _, fun c hc => hsep.alphanum c ?_⟩
  rw [List.mem_singleton.mp hc]
  simp [Char.isAlphanum, s.state.property]

/-- Every field after the name is a word. -/
theorem Spacing.solid_fields (hsep : Spacing sep) : ∀ f ∈ s.fields, Solid sep f := by
  have hticks : ∀ t, Solid sep (ticks t) := fun t => hsep.solid_digits t
  simp only [Stat.fields, Stat.front, Stat.back, List.cons_append, List.nil_append,
    List.forall_mem_cons, List.forall_mem_map, hsep.solid_state s, hsep.solid_int, hticks,
    implies_true, and_self]

/-! ## The words of the line -/

/-- The words that the name in its parentheses makes. -/
def nameWords (sep : Char → Bool) (name : List Char) : List (List Char) :=
  words sep ('(' :: name ++ [')'])

theorem words_line (hsep : Spacing sep) (s : Stat) :
    words sep s.line = int s.pid :: nameWords sep s.comm ++ s.fields := by
  rw [Stat.line, words_spaced hsep.space hsep.solid_fields, words_append_cons hsep.space,
    (hsep.solid_int s.pid).words]
  rfl

/-- What text mode makes of line ends is white space for white space. -/
theorem words_universalNewlines (hreturn : sep '\r' = true) (hnewline : sep '\n' = true)
    (a t : List Char) : words sep (a ++ universalNewlines t) = words sep (a ++ t) := by
  induction t using Strace.universalNewlines.induct generalizing a with
  | case1 => rfl
  | case2 t ih =>
    have hrest := ih []
    rw [universalNewlines, words_append_cons hnewline, words_append_cons hreturn,
      words_cons_sep hnewline]
    exact congrArg (words sep a ++ ·) hrest
  | case3 c t hpair ih =>
    rw [Strace.universalNewlines.eq_3 c t hpair]
    by_cases hc : c = '\r'
    · rw [if_pos hc, hc, words_append_cons hnewline, words_append_cons hreturn]
      exact congrArg (words sep a ++ ·) (ih [])
    · rw [if_neg hc, List.append_cons, ih, ← List.append_cons]

/-- A name without white space is one word. -/
theorem nameWords_of_clean (hsep : Spacing sep) {name : List Char}
    (h : ∀ c ∈ name, sep c = false) : nameWords sep name = ['(' :: name ++ [')']] := by
  refine Solid.words ⟨List.cons_ne_nil _ _, fun c hc => ?_⟩
  rcases List.mem_append.mp hc with hc | hc
  · rcases List.mem_cons.mp hc with rfl | hc
    · exact hsep.opening
    · exact h c hc
  · rw [List.mem_singleton.mp hc]
    exact hsep.closing

/-- A name with white space is more than one. -/
theorem two_le_nameWords (hsep : Spacing sep) {name : List Char} (hc : c ∈ name)
    (h : sep c = true) : 2 ≤ (nameWords sep name).length := by
  obtain ⟨a, b, rfl⟩ := List.append_of_mem hc
  have hsplit : '(' :: (a ++ c :: b) ++ [')'] = ('(' :: a) ++ c :: (b ++ [')']) := by simp
  rw [nameWords, hsplit]
  exact two_le_words h List.mem_cons_self hsep.opening
    (List.mem_append_right b List.mem_cons_self) hsep.closing

/-- What Python splits the text into. -/
theorem splitRead (s : Stat) : words isSpace (universalNewlines s.text) =
    int s.pid :: nameWords isSpace s.comm ++ s.fields := by
  have hread : words isSpace (universalNewlines s.text) = words isSpace s.text :=
    words_universalNewlines rfl rfl [] s.text
  rw [hread, Stat.text, words_concat_sep rfl, words_line spacing_isSpace]

theorem length_fields (s : Stat) : 20 ≤ s.fields.length := by
  simp only [Stat.fields, Stat.front, Stat.back, List.length_append, List.length_cons,
    List.length_nil]
  omega

/-! ## Names without white space -/

/-- **`analyze_process_details` is right about a name without white space.** -/
theorem detailsRight (h : ∀ c ∈ s.comm, isSpace c = false) : DetailsRight s := by
  have hwords := splitRead s
  rw [nameWords_of_clean spacing_isSpace h] at hwords
  have hlen : 20 < (words isSpace (universalNewlines s.text)).length := by
    have := length_fields s
    rw [hwords]
    simp only [List.cons_append, List.nil_append, List.length_cons]
    omega
  refine ⟨_, if_pos hlen, ?_⟩
  rw [hwords]
  exact ⟨rfl, rfl, rfl, rfl⟩

theorem not_mem_of_solid {w : List Char} (h : Solid blank w) : '\n' ∉ w :=
  fun hmem => by simpa [blank] using h.clean '\n' hmem

/-- Only the name can have an end of line in it. -/
theorem newline_not_mem_line (h : '\n' ∉ s.comm) : '\n' ∉ s.line := by
  have hfields : '\n' ∉ spaced s.fields := by
    intro hmem
    obtain ⟨f, hf, hmem⟩ := List.mem_flatMap.mp hmem
    rcases List.mem_cons.mp hmem with heq | hmem
    · exact absurd heq (by decide)
    · exact not_mem_of_solid (spacing_blank.solid_fields f hf) hmem
  have hpid := not_mem_of_solid (spacing_blank.solid_int s.pid)
  simp [Stat.line, hfields, hpid, h]

/-- What is captured and echoed is what was read. -/
theorem capture_text (s : Stat) : capture s.text ++ ['\n'] = s.text := by
  obtain ⟨fs, f, hfs⟩ : ∃ fs f, s.fields = fs ++ [f] := by
    rcases List.eq_nil_or_concat' s.fields with hnil | hconcat
    · exact absurd hnil (by simp [Stat.fields])
    · exact hconcat
  have hf : Solid blank f := spacing_blank.solid_fields f (by rw [hfs]; simp)
  obtain ⟨g, c, rfl⟩ := (List.eq_nil_or_concat' f).resolve_left hf.nonempty
  have hc : c ≠ '\n' := by
    rintro rfl
    exact not_mem_of_solid hf (by simp)
  simp [capture, Stat.text, Stat.line, hfs, spaced, hc]

/-- **`get_proc_info` is right about a name without blanks.** -/
theorem infoRight (h : ∀ c ∈ s.comm, blank c = false) : InfoRight s := by
  have hline := newline_not_mem_line fun hmem => by simpa [blank] using h '\n' hmem
  have hwords := words_line spacing_blank s
  rw [nameWords_of_clean spacing_blank h] at hwords
  rw [InfoRight, getProcInfo, Stat.text, takeWhile_newline hline []]
  rw [deal_getD (by decide), deal_getD (by decide), hwords]
  rfl

/-- **`calculate_cpu_usage` is right about a name without blanks.** -/
theorem usageRight (h : ∀ c ∈ s.comm, blank c = false) : UsageRight s := by
  have hline := newline_not_mem_line fun hmem => by simpa [blank] using h '\n' hmem
  have hwords := words_line spacing_blank s
  rw [nameWords_of_clean spacing_blank h] at hwords
  have hutime := Value.number_eq_of_text (n := s.utime)
    (text_field (by rw [hwords]; rfl : (words blank s.line)[13]? = some (ticks s.utime)))
    (by omega)
  have hstime := Value.number_eq_of_text (n := s.stime)
    (text_field (by rw [hwords]; rfl : (words blank s.line)[14]? = some (ticks s.stime)))
    (by omega)
  have hsum : double ((s.utime.val : ℚ) + s.stime.val) = s.utime.val + s.stime.val := by
    rw [← Nat.cast_add]
    exact double_natCast (by omega)
  rw [UsageRight, pidTime, awkSum, capture_text, Stat.text, records_concat hline,
    List.map_singleton, hutime, hstime, hsum]

/-! ## Names with white space -/

/-- The same process with another system time. -/
def Stat.withStime (s : Stat) (t : Ticks) : Stat := { s with stime := t }

theorem ticks_injective : Function.Injective ticks := fun _ _ h =>
  Fin.ext (toDigits_injective h)

/-- Behind a name of more than one word the system time is not among the first fifteen. -/
theorem words_withStime (hname : 2 ≤ (nameWords sep s.comm).length) (t : Ticks) (hi : i < 15) :
    (int s.pid :: nameWords sep s.comm ++ (s.withStime t).fields)[i]? =
      (int s.pid :: nameWords sep s.comm ++ s.fields)[i]? := by
  have hfields : ∀ t, (s.withStime t).fields = s.front ++ (ticks t :: s.back) := fun _ => rfl
  have hfront : s.front.length = 12 := rfl
  have hlen : i < (int s.pid :: nameWords sep s.comm ++ s.front).length := by
    simp only [List.cons_append, List.length_cons, List.length_append, hfront]
    omega
  rw [hfields, show s.fields = s.front ++ (ticks s.stime :: s.back) from rfl, ← List.append_assoc,
    ← List.append_assoc, List.getElem?_append_left hlen, List.getElem?_append_left hlen]

/-- **Of two lines that differ in the system time only, `analyze_process_details` is right about
one at most when the name has white space.** -/
theorem not_detailsRight (hc : c ∈ s.comm) (hsep : isSpace c = true) {t : Ticks} (ht : t ≠ s.stime)
    (h : DetailsRight s) : ¬ DetailsRight (s.withStime t) := by
  have hname := two_le_nameWords spacing_isSpace hc hsep
  rintro ⟨d', hd', -, -, -, hstime'⟩
  obtain ⟨d, hd, -, -, -, hstime⟩ := h
  have hwords := splitRead s
  have hwords' := splitRead (s.withStime t)
  have hsame := words_withStime hname t (i := 14) (by decide)
  simp only [analyzeProcessDetails, Option.ite_none_right_eq_some, Option.some.injEq] at hd hd'
  obtain ⟨-, rfl⟩ := hd
  obtain ⟨-, rfl⟩ := hd'
  refine ht (ticks_injective ?_)
  calc ticks t = (words isSpace (universalNewlines (s.withStime t).text)).getD 14 [] := hstime'.symm
    _ = (words isSpace (universalNewlines s.text)).getD 14 [] := by
      rw [hwords, hwords', List.getD_eq_getElem?_getD, List.getD_eq_getElem?_getD, ← hsame]
      rfl
    _ = ticks s.stime := hstime

/-- The first line of the text. -/
def Stat.first (s : Stat) : List Char := s.text.takeWhile (· ≠ '\n')

/-- Behind a name with a blank in it nothing that is read of the first line is the system time. -/
theorem words_first (hc : c ∈ s.comm) (hblank : blank c = true) (t : Ticks) (hi : i < 15) :
    (words blank (s.withStime t).first)[i]? = (words blank s.first)[i]? := by
  by_cases hnl : '\n' ∈ s.comm
  · -- the line ends within the name
    obtain ⟨a, b, hab, ha⟩ := List.eq_append_cons_of_mem hnl
    have hfirst : ∀ s' : Stat, s'.pid = s.pid → s'.comm = s.comm →
        s'.first = int s.pid ++ ' ' :: '(' :: a := by
      intro s' hpid hcomm
      have hclean : '\n' ∉ int s.pid ++ ' ' :: '(' :: a := by
        simp [ha, not_mem_of_solid (spacing_blank.solid_int s.pid)]
      have htext : s'.text = (int s.pid ++ ' ' :: '(' :: a) ++
          '\n' :: (b ++ ')' :: spaced s'.fields ++ ['\n']) := by
        simp [Stat.text, Stat.line, hpid, hcomm, hab]
      rw [Stat.first, htext, takeWhile_newline hclean]
    rw [hfirst s rfl rfl, hfirst (s.withStime t) rfl rfl]
  · have hname := two_le_nameWords spacing_blank hc hblank
    have hfirst : ∀ s' : Stat, s'.comm = s.comm → s'.first = s'.line := fun s' hcomm =>
      takeWhile_newline (newline_not_mem_line (hcomm ▸ hnl)) []
    rw [hfirst s rfl, hfirst (s.withStime t) rfl, words_line spacing_blank,
      words_line spacing_blank]
    exact words_withStime hname t hi

/-- **Nor is `get_proc_info`, when the name has a blank.** -/
theorem not_infoRight (hc : c ∈ s.comm) (hblank : blank c = true) {t : Ticks} (ht : t ≠ s.stime)
    (h : InfoRight s) : ¬ InfoRight (s.withStime t) := by
  intro h'
  have hread : ∀ s' : Stat, InfoRight s' →
      (words blank s'.first)[14]?.getD [] = ticks s'.stime := by
    intro s' hs'
    have hsnd := congrArg Prod.snd hs'
    rw [getProcInfo, deal_getD (by decide), deal_getD (by decide)] at hsnd
    rw [← List.getD_eq_getElem?_getD]
    exact hsnd
  have hsame := words_first hc hblank t (i := 14) (by decide)
  refine ht (ticks_injective ?_)
  rw [← hread s h, ← hsame]
  exact (hread _ h').symm

/-- **Nor is `calculate_cpu_usage`.** -/
theorem not_usageRight (hc : c ∈ s.comm) (hblank : blank c = true) {t : Ticks} (ht : t ≠ s.stime)
    (h : UsageRight s) : ¬ UsageRight (s.withStime t) := by
  intro h'
  have hread : ∀ s' : Stat, UsageRight s' →
      double ((field s'.first 14).number + (field s'.first 15).number) =
        s'.utime.val + s'.stime.val := by
    intro s' hs'
    have hhead := congrArg List.head? hs'
    rw [pidTime, awkSum, capture_text, List.head?_map, head_records (by simp [Stat.text])] at hhead
    exact Option.some.inj hhead
  have hfield : ∀ i < 15, field (s.withStime t).first (i + 1) = field s.first (i + 1) :=
    fun i hi => by rw [field, field, words_first hc hblank t hi]
  have hsum := hread _ h'
  rw [hfield 13 (by decide), hfield 14 (by decide), hread s h] at hsum
  exact ht (Fin.ext (by exact_mod_cast (add_left_cancel hsum).symm))

/-! ## Every name -/

/-- A process of that name that has done nothing. -/
def Stat.idle (name : List Char) : Stat :=
  { pid := 1, comm := name, state := ⟨'S', rfl⟩, ppid := 0, pgrp := 1, session := 1, ttyNr := 0,
    tpgid := -1, flags := 0, minflt := 0, cminflt := 0, majflt := 0, cmajflt := 0, utime := 0,
    stime := 0, cutime := 0, cstime := 0, priority := 20, nice := 0, numThreads := 1,
    itrealvalue := 0, starttime := 1, more := [] }

/-- What is right about no two lines that differ in the system time only, when the name has a
separator, is right about all lines of a name only when it has none. -/
theorem clean_of_right {P : Stat → Prop} {name : List Char}
    (hP : ∀ s c t, c ∈ s.comm → sep c = true → t ≠ s.stime → P s → ¬ P (s.withStime t))
    (h : ∀ s : Stat, s.comm = name → P s) : ∀ c ∈ name, sep c = false := by
  intro c hc
  by_contra hsep
  have hne : (1 : Ticks) ≠ (Stat.idle name).stime := show (1 : Ticks) ≠ 0 by decide
  exact hP (.idle name) c 1 hc (Bool.not_eq_false _ ▸ hsep) hne (h _ rfl) (h _ rfl)

/-- Python reads the names without white space right, and no others. -/
theorem detailsRight_iff (name : List Char) :
    (∀ s : Stat, s.comm = name → DetailsRight s) ↔ ∀ c ∈ name, isSpace c = false :=
  ⟨clean_of_right fun _ _ _ hc hsep ht h => not_detailsRight hc hsep ht h,
    fun h _ hs => detailsRight (hs ▸ h)⟩

/-- The shell reads the names without blanks right, and no others. -/
theorem infoRight_iff (name : List Char) :
    (∀ s : Stat, s.comm = name → InfoRight s) ↔ ∀ c ∈ name, blank c = false :=
  ⟨clean_of_right fun _ _ _ hc hblank ht h => not_infoRight hc hblank ht h,
    fun h _ hs => infoRight (hs ▸ h)⟩

/-- So does awk. -/
theorem usageRight_iff (name : List Char) :
    (∀ s : Stat, s.comm = name → UsageRight s) ↔ ∀ c ∈ name, blank c = false :=
  ⟨clean_of_right fun _ _ _ hc hblank ht h => not_usageRight hc hblank ht h,
    fun h _ hs => usageRight (hs ▸ h)⟩

/-- **The three readers are right about a name exactly when it has no white space.** -/
theorem readRight_iff (name : List Char) :
    (∀ s : Stat, s.comm = name → ReadRight s) ↔ ∀ c ∈ name, isSpace c = false := by
  constructor
  · intro h
    exact (detailsRight_iff name).mp fun s hs => (h s hs).details
  · intro h s hs
    have hblank : ∀ c ∈ name, blank c = false := fun c hc => by
      by_contra hsep
      have hspace := isSpace_of_blank (Bool.not_eq_false _ ▸ hsep)
      rw [h c hc] at hspace
      cases hspace
    exact ⟨(detailsRight_iff name).mpr h s hs, (infoRight_iff name).mpr hblank s hs,
      (usageRight_iff name).mpr hblank s hs⟩

/-- A server of a terminal multiplexer. -/
def tmux : Stat :=
  { pid := 1714, comm := "tmux: server".toList, state := ⟨'S', rfl⟩, ppid := 1, pgrp := 1714,
    session := 1714, ttyNr := 0, tpgid := -1, flags := 4194368, minflt := 921, cminflt := 310,
    majflt := 2, cmajflt := 4, utime := 120, stime := 35, cutime := 7, cstime := 3, priority := 20,
    nice := 0, numThreads := 1, itrealvalue := 0, starttime := 9021, more := [] }

/-- Its state is taken for `server)`, its parent for `S` and its times for those one further. -/
theorem tmux_misread : tmux.comm.length ≤ 15 ∧
    tmux.text = ("1714 (tmux: server) S 1 1714 1714 0 -1 4194368 921 310 2 4 120 35 " ++
      "7 3 20 0 1 0 9021\n").toList ∧
    analyzeProcessDetails tmux.text =
      some ⟨"server)".toList, "S".toList, "1".toList, "4".toList, "120".toList⟩ ∧
    getProcInfo tmux.text = ("4".toList, "120".toList) ∧ pidTime tmux.text = [124] ∧
    ¬ DetailsRight tmux ∧ ¬ InfoRight tmux ∧ ¬ UsageRight tmux := by
  have hdetails : analyzeProcessDetails tmux.text =
      some ⟨"server)".toList, "S".toList, "1".toList, "4".toList, "120".toList⟩ := by
    decide +kernel
  have hinfo : getProcInfo tmux.text = ("4".toList, "120".toList) := by decide +kernel
  have husage : pidTime tmux.text = [124] := by decide +kernel
  refine ⟨by decide +kernel, by decide +kernel, hdetails, hinfo, husage, ?_, ?_, ?_⟩
  · rintro ⟨d, hd, hstate, -⟩
    cases hdetails.symm.trans hd
    exact absurd hstate (by decide)
  · intro h
    exact absurd (hinfo.symm.trans h) (by decide)
  · intro h
    exact absurd (husage.symm.trans h) (by decide +kernel)

end OSCompas.Monitor
