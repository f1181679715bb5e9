import OSCompas.Lib.Regex

/-!
# The trace parser (`lab1-1-syscall-tracer/src/syscall_tracer.py`)

* `CharTable` — the classes `\d`, `\w` and `\s` of Python, of which the ASCII part is known;
* `pattern` — the regular expression of `_parse_trace_line`;
* `Entry`, `traceEntry` — what a line says;
* `Tracer`, `parseTraceLine`, `parseTraceFile` — the counters and the two methods.

Behind the equals sign `[^<]+` takes everything up to the next `<`, the blank in front of it as
well, and the part for the duration, which begins with a blank, is optional.

Principal results: `head_tail` and `matchAt_line`.
-/

set_option autoImplicit false

namespace OSCompas.Strace

open Regex Function

/-! ## Characters -/

/-- `\s` among the ASCII characters. -/
def asciiSpace (c : Char) : Bool :=
  c ∈ [' ', '\t', '\n', '\x0b', '\x0c', '\r', '\x1c', '\x1d', '\x1e', '\x1f']

/-- `\w` among the ASCII characters. -/
def asciiWord (c : Char) : Bool := c.isAlphanum || c == '_'

/-- The character classes of Python's `re`, which follow the Unicode tables. -/
structure CharTable where
  isDigit : Char → Bool
  isWord : Char → Bool
  isSpace : Char → Bool
  digit_ascii : ∀ c : Char, c.toNat < 128 → isDigit c = c.isDigit
  word_ascii : ∀ c : Char, c.toNat < 128 → isWord c = asciiWord c
  space_ascii : ∀ c : Char, c.toNat < 128 → isSpace c = asciiSpace c
  digit_word : ∀ c, isDigit c = true → isWord c = true
  word_not_space : ∀ c, isWord c = true → isSpace c = false

/-! ## The pattern -/

variable (U : CharTable)

/-- `\d+`, `\s+` and `\w+`. -/
def digits : Pattern := .plus U.isDigit

def spaces : Pattern := .plus U.isSpace

def word : Pattern := .plus U.isWord

/-- `\d+:\d+:\d+\.\d+` -/
def timePattern : Pattern :=
  .seq (digits U) <| .seq (lit ':') <| .seq (digits U) <| .seq (lit ':') <| .seq (digits U) <|
    .seq (lit '.') (digits U)

/-- `\s+<([^>]+)>` -/
def durationPattern : Pattern :=
  .seq (spaces U) <| .seq (lit '<') <| .seq (.group 5 (.plus (· != '>'))) (lit '>')

/-- `\)\s+=\s+([^<]+)(?:\s+<([^>]+)>)?` -/
def tailPattern : Pattern :=
  .seq (lit ')') <| .seq (spaces U) <| .seq (lit '=') <| .seq (spaces U) <|
    .seq (.group 4 (.plus (· != '<'))) (.opt (durationPattern U))

/-- `(\d+:\d+:\d+\.\d+)\s+(\w+)\((.*?)\)\s+=\s+([^<]+)(?:\s+<([^>]+)>)?` -/
def pattern : Pattern :=
  .seq (.group 1 (timePattern U)) <| .seq (spaces U) <| .seq (.group 2 (word U)) <|
    .seq (lit '(') <| .seq (.group 3 (.lazyStar (· != '\n'))) (tailPattern U)

/-! ## The counters -/

variable {F : Type}

/-- The attributes of a `SyscallTracer` that the parser works on. -/
structure Tracer (F : Type) where
  syscallStats : List Char → Nat
  errorStats : List Char → Nat
  timingData : List (List Char × F)

/-- `SyscallTracer()`. -/
def Tracer.init : Tracer F := ⟨fun _ => 0, fun _ => 0, []⟩

/-- `stats[key] += 1` on a `Counter`. -/
def increment (stats : List Char → Nat) (key : List Char) : List Char → Nat :=
  update stats key (stats key + 1)

/-- `result and '-' in result and result != '-1'`. -/
def isError (result : List Char) : Bool :=
  !result.isEmpty && '-' ∈ result && result != ['-', '1']

/-- What a line that matches says: the system call, the time that it took, if there is one, and
whether the result is taken for an error. -/
structure Entry (F : Type) where
  syscall : List Char
  time : Option F
  error : Bool

/-- The entry of a line, with Python's `float`, which may raise a `ValueError`. -/
def traceEntry (float : List Char → Option F) (line : List Char) : Option (Entry F) :=
  (matchAt (pattern U) line).map fun m =>
    { syscall := (m.groups 2).getD []
      time :=
        match m.groups 5 with
        | none => none
        | some duration => if duration.isEmpty then none else float duration
      error := isError ((m.groups 4).getD []) }

def Tracer.add (t : Tracer F) (e : Entry F) : Tracer F where
  syscallStats := increment t.syscallStats e.syscall
  errorStats := if e.error then increment t.errorStats e.syscall else t.errorStats
  timingData := t.timingData ++ e.time.toList.map fun time => (e.syscall, time)

/-- `_parse_trace_line`. -/
def parseTraceLine (float : List Char → Option F) (t : Tracer F) (line : List Char) : Tracer F :=
  match traceEntry U float line with
  | none => t
  | some e => t.add e

/-- `readlines`: each line with the newline at its end. -/
def readlines : List Char → List (List Char)
  | [] => []
  | c :: l =>
    if c = '\n' then ['\n'] :: readlines l
    else
      match readlines l with
      | [] => [[c]]
      | line :: lines => (c :: line) :: lines

/-- What the text mode of `open` makes of the ends of lines. -/
def universalNewlines : List Char → List Char
  | [] => []
  | '\r' :: '\n' :: l => '\n' :: universalNewlines l
  | c :: l => (if c = '\r' then '\n' else c) :: universalNewlines l

/-- `parse_trace_file`, for what is in the file, if there is one; the tracer and what it returns. -/
def parseTraceFile (float : List Char → Option F) (t : Tracer F) :
    Option (List Char) → Tracer F × Bool
  | none => (t, false)
  | some text => ((readlines (universalNewlines text)).foldl (parseTraceLine U float) t, true)

/-! ## The tail of the pattern -/

/-- What the pattern takes for the result behind the equals sign: blanks are skipped, and then it is
everything up to the next `<`, or the last of several blanks when there is nothing. -/
def resultBehind (l : List Char) : Option (List Char) :=
  let blanks := l.takeWhile U.isSpace
  let text := (l.dropWhile U.isSpace).takeWhile (· != '<')
  if blanks.isEmpty then none
  else if !text.isEmpty then some text
  else if 2 ≤ blanks.length then blanks.getLast?.map ([·])
  else none

/-- The same where the text begins with `)`, blanks and the equals sign. -/
def resultAt : List Char → Option (List Char)
  | ')' :: l =>
    match (l.takeWhile U.isSpace).isEmpty, l.dropWhile U.isSpace with
    | false, '=' :: l => resultBehind U l
    | _, _ => none
  | _ => none

variable {U} {g : Nat → Option (List Char)} {l rest text blanks : List Char}

/-- `([^<]+)(?:\s+<([^>]+)>)?` -/
def resultPattern (U : CharTable) : Pattern :=
  .seq (.group 4 (.plus (· != '<'))) (.opt (durationPattern U))

theorem space_ne {c d : Char} (hd : d.toNat < 128) (hspace : asciiSpace d = false)
    (hc : U.isSpace c = true) : c ≠ d := by
  rintro rfl
  rw [U.space_ascii c hd, hspace] at hc
  cases hc

/-- Behind the longest result there is no blank, and the duration is left out. -/
theorem ways_result (htext : text ≠ []) (hlt : ∀ c ∈ text, (c != '<') = true)
    (hrest : ¬ StartsIn (· != '<') rest) :
    ∃ others, ways (resultPattern U) ⟨g, text ++ rest⟩ = ⟨update g 4 text, rest⟩ :: others := by
  obtain ⟨others, hways, -⟩ := (Leads.plus (g := g) htext hlt hrest).group (n := 4)
  have hspace : ¬ StartsIn U.isSpace rest := by
    rintro ⟨c, l, rfl, hc⟩
    exact hrest ⟨c, l, rfl, by simpa using space_ne (by decide) (by decide) hc⟩
  have hdur : ways (durationPattern U) ⟨update g 4 text, rest⟩ = [] := by
    simp [durationPattern, ways_seq, spaces, ways, plusRests_eq_nil hspace]
  rw [resultPattern, ways_seq, hways, List.flatMap_cons]
  exact ⟨_, by rw [ways, hdur, List.nil_append, List.singleton_append]⟩

theorem ways_result_nil (h : ¬ StartsIn (· != '<') l) : ways (resultPattern U) ⟨g, l⟩ = [] := by
  simp [resultPattern, ways, plusRests_eq_nil h]

theorem ways_spaces :
    ways (.seq (spaces U) (resultPattern U)) ⟨g, l⟩ =
      (plusRests U.isSpace l).flatMap fun rest => ways (resultPattern U) ⟨g, rest⟩ := by
  simp only [spaces, ways, List.flatMap_map]

/-- `\s+([^<]+)(?:\s+<([^>]+)>)?` -/
theorem head_result :
    (ways (.seq (spaces U) (resultPattern U)) ⟨g, l⟩).head?.map Match.groups =
      (resultBehind U l).map fun t => update g 4 (some t) := by
  have hl : l.takeWhile U.isSpace ++ l.dropWhile U.isSpace = l := List.takeWhile_append_dropWhile
  have hrest := not_startsIn_dropWhile U.isSpace l
  have hblank := all_takeWhile U.isSpace l
  rw [ways_spaces, resultBehind]
  generalize l.takeWhile U.isSpace = blanks at *
  generalize l.dropWhile U.isSpace = rest at *
  subst hl
  by_cases hb : blanks = []
  · subst hb
    simp [plusRests_eq_nil hrest]
  · have hbe : blanks.isEmpty = false := by simpa using hb
    obtain ⟨others, hrests, -⟩ := plusRests_append hb hblank hrest
    by_cases ht : rest.takeWhile (· != '<') = []
    · -- nothing in front of the `<`: one blank is given back
      have hnone := ways_result_nil (g := g) (U := U) (not_startsIn_of_takeWhile ht)
      obtain ⟨ws, c, hlast⟩ := (List.eq_nil_or_concat blanks).resolve_left hb
      rw [List.concat_eq_append] at hlast
      subst hlast
      have hc : U.isSpace c = true := hblank c (by simp)
      by_cases hws : ws = []
      · subst hws
        have hone : plusRests U.isSpace (c :: rest) = [rest] := by
          rw [plusRests, if_pos hc, plusRests_eq_nil hrest, List.nil_append]
        simp [hone, hnone, ht]
      · obtain ⟨others', htwo⟩ := plusRests_append_two hws
          (fun d hd => hblank d (List.mem_append_left _ hd)) hc hrest
        obtain ⟨others'', hways⟩ := ways_result (g := g) (U := U) (List.cons_ne_nil c [])
          (by simpa using space_ne (by decide) (by decide) hc) (not_startsIn_of_takeWhile ht)
        rw [List.singleton_append] at hways
        rw [List.append_assoc, List.singleton_append, htwo]
        simp [hnone, hways, ht, hws, Nat.succ_le_iff, List.length_pos_iff]
    · have hsplit : rest.takeWhile (· != '<') ++ rest.dropWhile (· != '<') = rest :=
        List.takeWhile_append_dropWhile
      obtain ⟨others', hways⟩ := ways_result (g := g) (U := U) ht
        (all_takeWhile _ rest) (not_startsIn_dropWhile _ rest)
      rw [hsplit] at hways
      have hte : (rest.takeWhile (· != '<')).isEmpty = false := by simpa using ht
      simp [hrests, hways, hbe, hte]

/-- **The tail matches where there is a result, and captures it and nothing else.** -/
theorem head_tail :
    (ways (tailPattern U) ⟨g, l⟩).head?.map Match.groups =
      (resultAt U l).map fun t => update g 4 (some t) := by
  cases l with
  | nil => simp [tailPattern, ways_seq_lit_nil, resultAt]
  | cons c l =>
    by_cases hc : c = ')'
    · subst hc
      rw [tailPattern, ways_seq_lit]
      by_cases hb : l.takeWhile U.isSpace = []
      · have hnone := plusRests_eq_nil (not_startsIn_of_takeWhile hb)
        simp [resultAt, hb, spaces, ways, hnone]
      · -- the equals sign is no blank
        have hbe : (l.takeWhile U.isSpace).isEmpty = false := by simpa using hb
        have hsplit : l.takeWhile U.isSpace ++ l.dropWhile U.isSpace = l :=
          List.takeWhile_append_dropWhile
        have hleads := Leads.plus (g := g) hb (all_takeWhile U.isSpace l)
          (not_startsIn_dropWhile U.isSpace l)
        have hreject (r : Pattern) : Rejects (.seq (lit '=') r) U.isSpace :=
          Rejects.seq (rejects_char fun d hd => by simpa using space_ne (by decide) (by decide) hd)
        rw [hsplit] at hleads
        rw [spaces, hleads.ways_seq (hreject _)]
        cases hd : l.dropWhile U.isSpace with
        | nil => simp [resultAt, hbe, hd, ways_seq_lit_nil]
        | cons d l' =>
          by_cases heq : d = '='
          · subst heq
            have hres : resultAt U (')' :: l) = resultBehind U l' := by
              simp [resultAt, hbe, hd]
            rw [ways_seq_lit, hres]
            exact head_result
          · simp [resultAt, hbe, hd, ways_seq_lit_ne heq, heq]
    · simp [tailPattern, ways_seq_lit_ne hc, resultAt, hc]

/-- The result the pattern finds behind the opening parenthesis: that of the first place that has
one. -/
def resultText (U : CharTable) : List Char → Option (List Char)
  | [] => none
  | c :: l => (resultAt U (c :: l)).or (if c = '\n' then none else resultText U l)

/-- What is read off a match. -/
def fields (m : Match) : Option (List Char) × Option (List Char) × Option (List Char) :=
  (m.groups 2, m.groups 4, m.groups 5)

/-- The arguments are as short as they can be. -/
theorem head_args {v w : Option (List Char)} (G : List Char → Nat → Option (List Char))
    (h2 : ∀ rest, G rest 2 = v) (h5 : ∀ rest, G rest 5 = w) :
    (((lazyRests (· != '\n') l).flatMap fun rest => ways (tailPattern U) ⟨G rest, rest⟩).head?).map
      fields = (resultText U l).map fun t => (v, some t, w) := by
  have hfields (rest : List Char) :
      (ways (tailPattern U) ⟨G rest, rest⟩).head?.map fields =
        (resultAt U rest).map fun t => (v, some t, w) := by
    have htail := congrArg (Option.map fun groups : Nat → Option (List Char) =>
      (groups 2, groups 4, groups 5)) (head_tail (U := U) (g := G rest) (l := rest))
    rw [Option.map_map, Option.map_map] at htail
    refine htail.trans ?_
    simp [Function.comp_def, h2, h5]
  induction l with
  | nil => simpa [lazyRests, resultText, resultAt] using hfields []
  | cons c l ih =>
    rw [lazyRests, List.flatMap_cons, List.head?_append, Option.map_or, hfields, resultText]
    by_cases hc : c = '\n'
    · simp [hc]
    · rw [if_pos (by simpa using hc), if_neg hc, ih, Option.map_or]

/-! ## The whole line -/

/-- A timestamp: hours, minutes, seconds and microseconds, in digits. -/
structure Timestamp (U : CharTable) where
  hours : List Char
  minutes : List Char
  seconds : List Char
  micros : List Char
  hours_ne : hours ≠ []
  minutes_ne : minutes ≠ []
  seconds_ne : seconds ≠ []
  micros_ne : micros ≠ []
  hours_digit : ∀ c ∈ hours, U.isDigit c = true
  minutes_digit : ∀ c ∈ minutes, U.isDigit c = true
  seconds_digit : ∀ c ∈ seconds, U.isDigit c = true
  micros_digit : ∀ c ∈ micros, U.isDigit c = true

/-- `h:m:s.us` -/
def Timestamp.print (ts : Timestamp U) : List Char :=
  ts.hours ++ ':' :: (ts.minutes ++ ':' :: (ts.seconds ++ '.' :: ts.micros))

/-- The pattern for the time takes a timestamp as a whole, or stops in its last digits. -/
theorem Timestamp.leads (ts : Timestamp U) (hrest : ¬ StartsIn U.isDigit rest) :
    Leads (timePattern U) ⟨g, ts.print ++ rest⟩ ⟨g, rest⟩ U.isDigit := by
  have hcolon : U.isDigit ':' = false := U.digit_ascii _ (by decide)
  have hdot : U.isDigit '.' = false := U.digit_ascii _ (by decide)
  have hways : ways (timePattern U) ⟨g, ts.print ++ rest⟩ =
      ways (digits U) ⟨g, ts.micros ++ rest⟩ := by
    simp only [timePattern, digits, Timestamp.print, List.append_assoc, List.cons_append]
    rw [ways_plus_lit ts.hours_ne ts.hours_digit hcolon,
      ways_plus_lit ts.minutes_ne ts.minutes_digit hcolon,
      ways_plus_lit ts.seconds_ne ts.seconds_digit hdot]
  exact .of_ways hways (.plus ts.micros_ne ts.micros_digit hrest)

/-- **On a line with a time, a name and an opening parenthesis the pattern finds the name, the first
result and no duration.** -/
theorem matchAt_line (ts : Timestamp U) {name : List Char} (hne : name ≠ [])
    (hname : ∀ c ∈ name, U.isWord c = true) :
    (matchAt (pattern U) (ts.print ++ ' ' :: (name ++ '(' :: l))).map fields =
      (resultText U l).map fun t => (some name, some t, none) := by
  have hdigit : U.isDigit ' ' = false := U.digit_ascii _ (by decide)
  have hspace : U.isSpace ' ' = true := U.space_ascii _ (by decide)
  have hparen : U.isWord '(' = false := U.word_ascii _ (by decide)
  -- the time, the blank behind it and the name
  have hsp : ¬ StartsIn U.isDigit (' ' :: (name ++ '(' :: l)) := not_startsIn_cons hdigit
  have htime := (ts.leads (g := fun _ => none) hsp).group (n := 1)
  have hblank : ¬ StartsIn U.isSpace (name ++ '(' :: l) := by
    obtain ⟨c, name', rfl⟩ := List.exists_cons_of_ne_nil hne
    exact not_startsIn_cons (U.word_not_space c (hname c List.mem_cons_self))
  have hspaces := Leads.plus (p := U.isSpace) (g := update (fun _ => none) 1 (some ts.print))
    (List.cons_ne_nil ' ' []) (by simpa using hspace) hblank
  have hword := (Leads.plus (p := U.isWord) (g := update (fun _ => none) 1 (some ts.print)) hne
    hname (not_startsIn_cons (l := l) hparen)).group (n := 2)
  have hno : ∀ c, U.isSpace c = true → U.isWord c = false := by
    intro c hc
    by_contra hw
    rw [Bool.not_eq_false] at hw
    rw [U.word_not_space c hw] at hc
    cases hc
  have hrspaces (r : Pattern) : Rejects (.seq (.plus U.isSpace) r) U.isDigit :=
    Rejects.seq (rejects_plus fun c hc => U.word_not_space c (U.digit_word c hc))
  have hrword (r : Pattern) : Rejects (.seq (.group 2 (.plus U.isWord)) r) U.isSpace :=
    Rejects.seq (Rejects.group (rejects_plus hno))
  have hrparen (r : Pattern) : Rejects (.seq (lit '(') r) U.isWord := by
    apply Rejects.seq (rejects_char fun c hc => ?_)
    rw [beq_eq_false_iff_ne]
    rintro rfl
    rw [hparen] at hc
    cases hc
  rw [matchAt, pattern, spaces, word, htime.ways_seq (hrspaces _), ← List.singleton_append,
    hspaces.ways_seq (hrword _), hword.ways_seq (hrparen _), ways_seq_lit]
  -- the arguments and the rest
  have hargs := head_args (U := U) (l := l) (v := some name) (w := none)
    (fun rest => update (update (update (fun _ => none) 1 (some ts.print)) 2 (some name)) 3
      (some (before l rest))) (fun _ => rfl) (fun _ => rfl)
  rw [← hargs]
  simp only [ways, List.map_map, List.flatMap_map, Function.comp_def]

end OSCompas.Strace
