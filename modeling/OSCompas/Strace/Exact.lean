import OSCompas.Strace.Parser
import Mathlib.Data.List.Induction

/-!
# What the parser counts

* `Record` — a system call as the trace shows it: time, name, arguments, return text and perhaps a
  duration; `line` — how it is printed;
* `count` — what the counters should be after it;
* `Spared` — there is no duration, no place in the arguments is taken for the end of the call with
  another verdict on the error, and there is something behind the equals sign.

Principal results: `parse_exact_iff` and `parse_not_exact`.
-/

set_option autoImplicit false

namespace OSCompas.Strace

open Regex Function

variable {U : CharTable} {F : Type} {float : List Char → Option F}

/-! ## Records -/

/-- A system call in a trace. -/
structure Record (U : CharTable) (float : List Char → Option F) where
  time : Timestamp U
  syscall : List Char
  args : List Char
  ret : List Char
  duration : Option (List Char)
  syscall_ne : syscall ≠ []
  syscall_word : ∀ c ∈ syscall, U.isWord c = true
  args_line : '\n' ∉ args ∧ '\r' ∉ args
  ret_line : '\n' ∉ ret ∧ '\r' ∉ ret
  ret_ok : ('<' ∉ ret ∧ '-' ∉ ret) ∨ ['-', '1', ' '] <+: ret
  duration_number : ∀ d ∈ duration, (float d).isSome
  duration_line : ∀ d ∈ duration, '\n' ∉ d ∧ '\r' ∉ d

namespace Record

/-- ` <d>`, if there is a duration. -/
def durationText (r : Record U float) : List Char :=
  match r.duration with
  | none => []
  | some d => ' ' :: '<' :: (d ++ ['>'])

/-- What is printed behind the arguments, with or without the end of the line. -/
def tail (r : Record U float) (newline : Bool) : List Char :=
  ')' :: ' ' :: '=' :: ' ' :: (r.ret ++ (r.durationText ++ if newline then ['\n'] else []))

/-- `timestamp syscall(args) = ret <d>` -/
def line (r : Record U float) (newline : Bool) : List Char :=
  r.time.print ++ ' ' :: (r.syscall ++ '(' :: (r.args ++ r.tail newline))

/-- The return text says that the call failed. -/
def Failed (r : Record U float) : Prop := ['-', '1'] <+: r.ret

instance (r : Record U float) : Decidable r.Failed := inferInstanceAs (Decidable (_ <+: _))

/-- The duration with the name. -/
def timing (r : Record U float) : List (List Char × F) :=
  ((r.duration.bind float).map fun time => (r.syscall, time)).toList

/-- What the counters should be after the record. -/
def count (r : Record U float) (t : Tracer F) : Tracer F where
  syscallStats := increment t.syscallStats r.syscall
  errorStats := if r.Failed then increment t.errorStats r.syscall else t.errorStats
  timingData := t.timingData ++ r.timing

end Record

/-- The result found at the first place in the arguments that can be taken for the end of the
call, with what follows it. -/
def steered (U : CharTable) (tail : List Char) : List Char → Option (List Char)
  | [] => none
  | c :: args => (resultAt U (c :: (args ++ tail))).or (steered U tail args)

/-- There is no duration, and if a place in the arguments is taken for the end of the call, what
stands there is an error exactly when the call failed; if none is, something stands behind the
result's equals sign and blank, the end of the line at least. -/
def Record.Spared (r : Record U float) (newline : Bool) : Prop :=
  r.duration = none ∧
    match steered U (r.tail newline) r.args with
    | some t => isError t = true ↔ r.Failed
    | none => r.ret ≠ [] ∨ newline = true

variable {r : Record U float} {t : Tracer F} {l args tail text : List Char} {newline : Bool}

/-! ## The result of a line -/

/-- The end of the call is found in the arguments, or behind them. -/
theorem resultText_append (h : '\n' ∉ args) :
    resultText U (args ++ tail) = (steered U tail args).or (resultText U tail) := by
  induction args with
  | nil => simp [steered]
  | cons c args ih =>
    have hc : c ≠ '\n' := fun hc => h (by simp [hc])
    have hargs : '\n' ∉ args := fun hmem => h (List.mem_cons_of_mem _ hmem)
    rw [List.cons_append, resultText, if_neg hc, ih hargs, steered, Option.or_assoc]

/-- A result is made of characters of the text. -/
theorem resultBehind_subset (h : resultBehind U l = some text) : text ⊆ l := by
  have hblanks : l.takeWhile U.isSpace ⊆ l := (List.takeWhile_sublist _).subset
  have hrest : (l.dropWhile U.isSpace).takeWhile (· != '<') ⊆ l :=
    ((List.takeWhile_sublist _).trans (List.dropWhile_sublist _)).subset
  unfold resultBehind at h
  dsimp only at h
  split at h
  · cases h
  · split at h
    · cases h
      exact hrest
    · split at h
      · obtain ⟨c, hc, rfl⟩ := Option.map_eq_some_iff.mp h
        intro d hd
        rw [List.mem_singleton.mp hd]
        exact hblanks (List.mem_of_getLast? hc)
      · cases h

/-- Behind a blank, something that is not `<` makes a result. -/
theorem resultBehind_isSome (hlt : '<' ∉ l) (hne : l ≠ []) :
    ∃ text, resultBehind U (' ' :: l) = some text := by
  have hblank : U.isSpace ' ' = true := U.space_ascii _ (by decide)
  have hall : (l.dropWhile U.isSpace).takeWhile (· != '<') = l.dropWhile U.isSpace := by
    apply List.takeWhile_eq_self_iff.mpr
    intro c hc
    rw [bne_iff_ne]
    rintro rfl
    exact hlt ((List.dropWhile_sublist _).subset hc)
  by_cases hd : l.dropWhile U.isSpace = []
  · have htake : l.takeWhile U.isSpace = l := by
      have hsplit : l.takeWhile U.isSpace ++ l.dropWhile U.isSpace = l :=
        List.takeWhile_append_dropWhile
      rwa [hd, List.append_nil] at hsplit
    have hlen : 2 ≤ l.length + 1 := Nat.succ_le_succ (List.length_pos_iff.mpr hne)
    obtain ⟨c, hc⟩ := Option.ne_none_iff_exists'.mp
      (mt List.getLast?_eq_none_iff.mp (List.cons_ne_nil ' ' l))
    exact ⟨[c], by simp [resultBehind, hblank, hd, htake, hlen, hc]⟩
  · exact ⟨l.dropWhile U.isSpace, by simp [resultBehind, hblank, hall, hd]⟩

/-- Behind the arguments the result is looked for behind the equals sign. -/
theorem Record.resultAt_tail (hd : r.duration = none) :
    resultAt U (r.tail newline) =
      resultBehind U (' ' :: (r.ret ++ if newline then ['\n'] else [])) := by
  have hblank : U.isSpace ' ' = true := U.space_ascii _ (by decide)
  have hequals : U.isSpace '=' = false := U.space_ascii _ (by decide)
  simp [Record.tail, Record.durationText, hd, resultAt, hblank, hequals]

/-- The result behind the arguments of a record without a duration says whether the call
failed. -/
theorem Record.resultText_tail (hd : r.duration = none) (hne : r.ret ≠ [] ∨ newline = true) :
    ∃ t, resultText U (r.tail newline) = some t ∧ (isError t = true ↔ r.Failed) := by
  have hat : resultAt U (r.tail newline) = _ := r.resultAt_tail hd
  have htext {t : List Char} (ht : resultAt U (r.tail newline) = some t) :
      resultText U (r.tail newline) = some t := by
    rw [Record.tail] at ht ⊢
    rw [resultText, ht, Option.some_or]
  have heol : '<' ∉ (if newline then ['\n'] else []) ∧ '-' ∉ (if newline then ['\n'] else []) := by
    cases newline <;> decide
  have hne' : r.ret ++ (if newline then ['\n'] else []) ≠ [] := by
    rcases hne with hne | rfl
    · simp [hne]
    · simp
  generalize (if newline then ['\n'] else []) = eol at *
  rcases r.ret_ok with ⟨hlt, hnot⟩ | ⟨rest, hrest⟩
  · have hmem : '<' ∉ r.ret ++ eol := by simp [hlt, heol.1]
    obtain ⟨t, ht⟩ := resultBehind_isSome (U := U) hmem hne'
    refine ⟨t, htext (hat.trans ht), ?_⟩
    have hno : '-' ∉ t := by
      intro h
      have hback := resultBehind_subset ht h
      simp [hnot, heol.2] at hback
    have hok : ¬ r.Failed := by
      rintro ⟨rest, hrest⟩
      simp [← hrest] at hnot
    simp [isError, hno, hok]
  · have hminus : U.isSpace '-' = false := U.space_ascii _ (by decide)
    have hblank : U.isSpace ' ' = true := U.space_ascii _ (by decide)
    have hfailed : r.Failed := ⟨' ' :: rest, hrest⟩
    have hresult : resultBehind U (' ' :: (r.ret ++ eol)) =
        some ('-' :: '1' :: ' ' :: (rest ++ eol).takeWhile (· != '<')) := by
      simp [← hrest, resultBehind, hblank, hminus]
    exact ⟨_, htext (hat.trans hresult), by simp [isError, hfailed]⟩

/-- Where nothing at all stands behind the equals sign and its blank, there is no result. -/
theorem Record.resultText_tail_nil (hd : r.duration = none) (hret : r.ret = []) :
    resultText U (r.tail false) = none := by
  have hblank : U.isSpace ' ' = true := U.space_ascii _ (by decide)
  have hequals : U.isSpace '=' = false := U.space_ascii _ (by decide)
  simp [Record.tail, Record.durationText, hd, hret, resultText, resultAt, resultBehind, hblank,
    hequals]

/-! ## One line -/

/-- What the parser makes of a line. -/
theorem parseTraceLine_line : parseTraceLine U float t (r.line newline) =
    match resultText U (r.args ++ r.tail newline) with
    | none => t
    | some result =>
      { syscallStats := increment t.syscallStats r.syscall
        errorStats := if isError result then increment t.errorStats r.syscall else t.errorStats
        timingData := t.timingData } := by
  have hmatch := matchAt_line (l := r.args ++ r.tail newline) r.time r.syscall_ne r.syscall_word
  unfold parseTraceLine traceEntry
  cases hm : matchAt (pattern U) (r.line newline) with
  | none =>
    have hnone : resultText U (r.args ++ r.tail newline) = none := by
      rw [← Option.map_eq_none_iff, ← hmatch]
      exact congrArg (Option.map fields) hm
    rw [hnone]
    rfl
  | some m =>
    have hsome := (congrArg (Option.map fields) hm).symm.trans hmatch
    obtain ⟨result, hresult, hfields⟩ := Option.map_eq_some_iff.mp hsome.symm
    simp only [fields, Prod.mk.injEq] at hfields
    obtain ⟨h2, h4, h5⟩ := hfields
    rw [hresult]
    simp only [Option.map_some, Tracer.add, ← h2, ← h4, ← h5, Option.getD_some, Option.toList_none,
      List.map_nil, List.append_nil]

theorem increment_ne (stats : List Char → Nat) (key : List Char) : increment stats key ≠ stats := by
  intro h
  have hkey := congrFun h key
  rw [increment, update_self] at hkey
  omega

/-- **The parser counts a line as it should exactly when the record is spared.** -/
theorem parseTraceLine_iff :
    parseTraceLine U float t (r.line newline) = r.count t ↔ r.Spared newline := by
  rw [parseTraceLine_line, Record.Spared, Record.count, Record.timing]
  cases hd : r.duration with
  | some d =>
    -- the duration is never found
    obtain ⟨v, hv⟩ := Option.isSome_iff_exists.mp (r.duration_number d hd)
    simp only [reduceCtorEq, false_and, iff_false]
    intro h
    have hlen := congrArg (fun t => t.timingData.length) h
    cases hr : resultText U (r.args ++ r.tail newline) with
    | none => simp [hr, hv] at hlen
    | some result => simp [hr, hv] at hlen
  | none =>
    rw [resultText_append r.args_line.1]
    have hverdict (result : List Char) :
        (if isError result then increment t.errorStats r.syscall else t.errorStats) =
          (if r.Failed then increment t.errorStats r.syscall else t.errorStats) ↔
        (isError result = true ↔ r.Failed) := by
      have hne := increment_ne t.errorStats r.syscall
      by_cases he : isError result = true <;> by_cases hf : r.Failed <;>
        simp [he, hf, hne, hne.symm]
    cases hs : steered U (r.tail newline) r.args with
    | some result => simp [hverdict]
    | none =>
      by_cases hne : r.ret ≠ [] ∨ newline = true
      · obtain ⟨result, hresult, hok⟩ := r.resultText_tail hd hne
        simpa [hresult, hverdict, hne] using hok
      · -- the line is not taken for a call
        obtain ⟨hret, hnewline⟩ := not_or.mp hne
        rw [not_not] at hret
        rw [Bool.not_eq_true] at hnewline
        subst hnewline
        have hlost : t.syscallStats ≠ increment t.syscallStats r.syscall :=
          (increment_ne _ _).symm
        rw [r.resultText_tail_nil hd hret]
        simp only [Option.or_none, true_and, hne, iff_false]
        exact fun h => hlost (congrArg Tracer.syscallStats h)

/-! ## A whole file -/

theorem universalNewlines_eq (h : '\r' ∉ l) : universalNewlines l = l := by
  fun_induction universalNewlines l with
  | case1 => rfl
  | case2 l ih => simp at h
  | case3 c l hcr ih =>
    have hc : c ≠ '\r' := fun hc => h (by simp [hc])
    rw [if_neg hc, ih fun hl => h (List.mem_cons_of_mem _ hl)]

theorem readlines_append (h : '\n' ∉ text) :
    readlines (text ++ '\n' :: l) = (text ++ ['\n']) :: readlines l := by
  induction text with
  | nil => simp [readlines]
  | cons c text ih =>
    have hc : c ≠ '\n' := fun hc => h (by simp [hc])
    rw [List.cons_append, readlines, if_neg hc, ih fun ht => h (List.mem_cons_of_mem _ ht)]
    rfl

/-- A line holds no other end of a line. -/
theorem Record.not_mem_line (r : Record U float) {c : Char} (hc : c = '\n' ∨ c = '\r') :
    c ∉ r.line false := by
  have hdigit : U.isDigit c = false := by
    rcases hc with rfl | rfl
    · exact U.digit_ascii _ (by decide)
    · exact U.digit_ascii _ (by decide)
  have hword : U.isWord c = false := by
    rcases hc with rfl | rfl
    · exact U.word_ascii _ (by decide)
    · exact U.word_ascii _ (by decide)
  have hoff {p : Char → Bool} {w : List Char} (hw : ∀ d ∈ w, p d = true) (hp : p c = false) :
      c ∉ w := by
    intro hmem
    rw [hw c hmem] at hp
    cases hp
  have htime : c ∉ r.time.print := by
    have hhours := hoff r.time.hours_digit hdigit
    have hminutes := hoff r.time.minutes_digit hdigit
    have hseconds := hoff r.time.seconds_digit hdigit
    have hmicros := hoff r.time.micros_digit hdigit
    rcases hc with rfl | rfl <;> simp [Timestamp.print, hhours, hminutes, hseconds, hmicros]
  have hname : c ∉ r.syscall := hoff r.syscall_word hword
  have hargs : c ∉ r.args := by
    rcases hc with rfl | rfl
    · exact r.args_line.1
    · exact r.args_line.2
  have hret : c ∉ r.ret := by
    rcases hc with rfl | rfl
    · exact r.ret_line.1
    · exact r.ret_line.2
  have hdur : c ∉ r.durationText := by
    unfold Record.durationText
    cases hd : r.duration with
    | none => exact List.not_mem_nil
    | some d =>
      obtain ⟨hn, hr⟩ := r.duration_line d hd
      rcases hc with rfl | rfl
      · simp [hn]
      · simp [hr]
  rcases hc with rfl | rfl <;> simp [Record.line, Record.tail, htime, hname, hargs, hret, hdur]

theorem Record.line_true (r : Record U float) : r.line true = r.line false ++ ['\n'] := by
  simp [Record.line, Record.tail]

/-- The file is read line by line. -/
theorem readlines_lines (rs : List (Record U float)) :
    readlines (universalNewlines (rs.flatMap (·.line true))) = rs.map (·.line true) := by
  have hcr : '\r' ∉ rs.flatMap (·.line true) := by
    intro h
    obtain ⟨r, -, hr⟩ := List.mem_flatMap.mp h
    simp [r.line_true, r.not_mem_line (.inr rfl)] at hr
  rw [universalNewlines_eq hcr]
  induction rs with
  | nil => rfl
  | cons r rs ih =>
    have hrest : '\r' ∉ rs.flatMap (·.line true) := fun h => hcr (by simp [h])
    rw [List.flatMap_cons, r.line_true, List.append_assoc, List.singleton_append,
      readlines_append (r.not_mem_line (.inl rfl)), ih hrest, List.map_cons, r.line_true]

/-- The exact counts: how often each call was made, how often it failed, and the durations. -/
def totals (rs : List (Record U float)) : Tracer F where
  syscallStats := fun s => rs.countP (·.syscall = s)
  errorStats := fun s => rs.countP fun r => r.syscall = s ∧ r.Failed
  timingData := rs.flatMap Record.timing

theorem totals_append (rs : List (Record U float)) (r : Record U float) :
    totals (rs ++ [r]) = r.count (totals rs) := by
  have hcalls : (totals (rs ++ [r])).syscallStats =
      increment (totals rs).syscallStats r.syscall := by
    funext s
    by_cases hs : s = r.syscall
    · subst hs
      simp [totals, increment]
    · simp [totals, increment, hs, Ne.symm hs]
  have herrors : (totals (rs ++ [r])).errorStats =
      if r.Failed then increment (totals rs).errorStats r.syscall else (totals rs).errorStats := by
    funext s
    by_cases hs : s = r.syscall
    · subst hs
      by_cases hf : r.Failed <;> simp [totals, increment, hf]
    · by_cases hf : r.Failed <;> simp [totals, increment, hs, Ne.symm hs, hf]
  have htimes : (totals (rs ++ [r])).timingData = (totals rs).timingData ++ r.timing := by
    simp [totals]
  rw [Record.count, ← hcalls, ← herrors, ← htimes]

/-- **A file of spared records is counted exactly.** -/
theorem parseTraceFile_exact {rs : List (Record U float)} (h : ∀ r ∈ rs, r.Spared true) :
    parseTraceFile U float .init (some (rs.flatMap (·.line true))) = (totals rs, true) := by
  rw [parseTraceFile, readlines_lines, List.foldl_map]
  congr 1
  induction rs using List.reverseRecOn with
  | nil => rfl
  | append_singleton rs r ih =>
    rw [List.foldl_append, List.foldl_cons, List.foldl_nil,
      ih fun r' hr' => h r' (List.mem_append_left _ hr'), totals_append]
    exact parseTraceLine_iff.mpr (h r (by simp))

/-! ## Some records -/

/-- The character classes of plain ASCII. -/
def asciiTable : CharTable where
  isDigit := Char.isDigit
  isWord := asciiWord
  isSpace := asciiSpace
  digit_ascii _ _ := rfl
  word_ascii _ _ := rfl
  space_ascii _ _ := rfl
  digit_word c hc := by simp [asciiWord, Char.isAlphanum, hc]
  word_not_space c hc := by
    simp only [asciiSpace, List.mem_cons, List.not_mem_nil, or_false, decide_eq_false_iff_not]
    rintro (rfl | rfl | rfl | rfl | rfl | rfl | rfl | rfl | rfl | rfl) <;> cases hc

/-- A time of day. -/
def someTime : Timestamp asciiTable where
  hours := "16".toList
  minutes := "30".toList
  seconds := "25".toList
  micros := "124068".toList
  hours_ne := by decide
  minutes_ne := by decide
  seconds_ne := by decide
  micros_ne := by decide
  hours_digit := List.all_eq_true.mp (by decide)
  minutes_digit := List.all_eq_true.mp (by decide)
  seconds_digit := List.all_eq_true.mp (by decide)
  micros_digit := List.all_eq_true.mp (by decide)

/-- The one duration below, in microseconds. -/
def micros (d : List Char) : Option Nat := if d = "0.000123".toList then some 123 else none

/-- `access("/etc/ld.so.preload", R_OK) = -1 ENOENT` -/
def access : Record asciiTable micros where
  time := someTime
  syscall := "access".toList
  args := "\"/etc/ld.so.preload\", R_OK".toList
  ret := "-1 ENOENT".toList
  duration := none
  syscall_ne := by decide
  syscall_word := List.all_eq_true.mp (by decide)
  args_line := by decide
  ret_line := by decide
  ret_ok := by decide
  duration_number := by simp
  duration_line := by simp

theorem access_spared (newline : Bool) : access.Spared newline := by
  cases newline
  · refine ⟨rfl, ?_⟩
    have h : steered asciiTable (access.tail false) access.args = none := by decide
    rw [h]
    exact .inl (by decide)
  · refine ⟨rfl, ?_⟩
    have h : steered asciiTable (access.tail true) access.args = none := by decide
    rw [h]
    exact .inr rfl

/-- **A line is counted as it should be exactly when its record is spared, and a file of spared
records gives the exact counts.** -/
theorem parse_exact_iff (U : CharTable) (float : List Char → Option F) :
    (∀ (r : Record U float) (t : Tracer F) (newline : Bool),
      parseTraceLine U float t (r.line newline) = r.count t ↔ r.Spared newline) ∧
    ∀ rs : List (Record U float), (∀ r ∈ rs, r.Spared true) →
      parseTraceFile U float .init (some (rs.flatMap (·.line true))) = (totals rs, true) :=
  ⟨fun _ _ _ => parseTraceLine_iff, fun _ h => parseTraceFile_exact h⟩

/-- A trace that is counted exactly. -/
theorem parse_exact_access :
    parseTraceLine asciiTable micros .init (access.line false) = access.count .init ∧
      parseTraceFile asciiTable micros .init (some ([access, access].flatMap (·.line true))) =
        (totals [access, access], true) :=
  ⟨((parse_exact_iff asciiTable micros).1 access .init false).mpr (access_spared false),
    (parse_exact_iff asciiTable micros).2 [access, access] (by simp [access_spared])⟩

/-- `close(3) = 0 <0.000123>` -/
def close : Record asciiTable micros where
  time := someTime
  syscall := "close".toList
  args := "3".toList
  ret := "0".toList
  duration := some "0.000123".toList
  syscall_ne := by decide
  syscall_word := List.all_eq_true.mp (by decide)
  args_line := by decide
  ret_line := by decide
  ret_ok := by decide
  duration_number := by decide
  duration_line := by decide

/-- `write(1, "f(x) = y-z", 10) = 10` -/
def write : Record asciiTable micros where
  time := someTime
  syscall := "write".toList
  args := "1, \"f(x) = y-z\", 10".toList
  ret := "10".toList
  duration := none
  syscall_ne := by decide
  syscall_word := List.all_eq_true.mp (by decide)
  args_line := by decide
  ret_line := by decide
  ret_ok := by decide
  duration_number := by simp
  duration_line := by simp

/-- **The duration of a call is not recorded, and what is written can make a success an error.** -/
theorem parse_not_exact :
    parseTraceLine asciiTable micros .init (close.line true) ≠ close.count .init ∧
      parseTraceLine asciiTable micros .init (write.line true) ≠ write.count .init := by
  have hclose : ¬ close.Spared true := fun h => absurd h.1 (by decide)
  have hwrite : ¬ write.Spared true := by
    rintro ⟨-, h⟩
    have hsteered : steered asciiTable (write.tail true) write.args =
        some "y-z\", 10) = 10\n".toList := by decide
    rw [hsteered] at h
    exact absurd h (by decide)
  exact ⟨parseTraceLine_iff.not.mpr hclose, parseTraceLine_iff.not.mpr hwrite⟩

end OSCompas.Strace
