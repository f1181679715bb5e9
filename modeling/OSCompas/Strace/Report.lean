import OSCompas.Lib.Tally
import OSCompas.Strace.Exact
import Mathlib.Data.Rat.Defs
import Mathlib.Algebra.Order.Field.Rat
import Mathlib.Tactic.Positivity
import Mathlib.Tactic.Linarith

/-!
# The reports (`lab1-1-syscall-tracer/src/syscall_tracer.py`)

* `Tables` — the attributes of a `SyscallTracer`, with the counters in the order in which they were
  filled; looked up, they are the counters of `Tracer` (`tracer_parseLines`);
* `textReport`, `jsonReport` — what `generate_report` computes in its two formats.

The text report goes through the system calls and looks for the category of each, the JSON report
goes through the categories and looks for the count of each name.

Principal results: `text_report_counts`, `reports_agree` and `report_perm`.
-/

set_option autoImplicit false

namespace OSCompas.Strace

open Regex Function

variable (U : CharTable) {F : Type} (float : List Char → Option F)

/-! ## The tables -/

/-- `syscall_stats`, `error_stats` and `timing_data`. -/
structure Tables (F : Type) where
  syscallStats : Tally (List Char)
  errorStats : Tally (List Char)
  timingData : List (List Char × F)

namespace Tables

def init : Tables F := ⟨.empty, .empty, []⟩

/-- An entry in the tables. -/
def add (t : Tables F) (e : Entry F) : Tables F where
  syscallStats := t.syscallStats.add e.syscall 1
  errorStats := if e.error then t.errorStats.add e.syscall 1 else t.errorStats
  timingData := t.timingData ++ e.time.toList.map fun time => (e.syscall, time)

/-- `_parse_trace_line` -/
def parseTraceLine (t : Tables F) (line : List Char) : Tables F :=
  match traceEntry U float line with
  | none => t
  | some e => t.add e

/-- The loop of `parse_trace_file`. -/
def parseLines (t : Tables F) (lines : List (List Char)) : Tables F :=
  lines.foldl (parseTraceLine U float) t

end Tables

/-! ## The categories -/

inductive Category where
  | fileOperations
  | processControl
  | memoryManagement
  | networkOperations
  | signals
  | timeOperations
  | other
  deriving DecidableEq, Repr

/-- `syscall_categories` -/
def syscallCategories : List (Category × List (List Char)) :=
  [(.fileOperations, ["open", "read", "write", "close", "stat", "lseek"]),
    (.processControl, ["fork", "execve", "wait4", "exit", "clone"]),
    (.memoryManagement, ["brk", "mmap", "munmap", "mprotect"]),
    (.networkOperations, ["socket", "connect", "accept", "send", "recv"]),
    (.signals, ["kill", "signal", "sigaction"]),
    (.timeOperations, ["time", "gettimeofday", "nanosleep"])].map
      fun c => (c.1, c.2.map String.toList)

/-! ## The reports -/

/-- A division by zero. -/
inductive PyError where
  | zeroDivision
  deriving DecidableEq, Repr

/-- `(count / total) * 100`, with the exact quotient where Python has a float. -/
def percentage (count total : Nat) : Except PyError ℚ :=
  if total = 0 then .error .zeroDivision else .ok (count / total * 100)

/-- An item with its share of the total. -/
def withShare {α : Type} (total : Nat) (p : α × Nat) : Except PyError (α × Nat × ℚ) :=
  (percentage p.2 total).map fun share => (p.1, p.2, share)

/-- The figures of the text report. -/
structure TextReport where
  totalCalls : Nat
  unique : Nat
  top : List (List Char × Nat × ℚ)
  errors : List (List Char × Nat × ℚ)
  categories : List (Category × Nat × ℚ)

/-- The figures of the JSON report. -/
structure JsonReport where
  totalSyscalls : Nat
  uniqueSyscalls : Nat
  topSyscalls : List (List Char × Nat × ℚ)
  errors : List (List Char × Nat)
  categories : List (Category × Nat × ℚ)

variable (t : Tables F)

/-- `category_stats` of the text report: a system call counts for the first category that has its
name, or for `other`. -/
def categoryStats : Tally Category :=
  t.syscallStats.regroup (Tally.groupOf syscallCategories .other)

/-- `_generate_text_report` -/
def generateTextReport (totalCalls : Nat) : Except PyError TextReport := do
  let top ← (t.syscallStats.mostCommon.take 10).mapM (withShare totalCalls)
  let errors ← (t.errorStats.mostCommon.take 5).mapM fun p =>
    withShare (t.syscallStats.get p.1) p
  let categories ← (categoryStats t).mostCommon.mapM (withShare totalCalls)
  return ⟨totalCalls, t.syscallStats.size, top, errors, categories⟩

/-- `category_count` -/
def categoryCount (syscalls : List (List Char)) : Nat := (syscalls.map t.syscallStats.get).sum

/-- `_generate_json_report` -/
def generateJsonReport (totalCalls : Nat) : Except PyError JsonReport := do
  let top ← (t.syscallStats.mostCommon.take 10).mapM (withShare totalCalls)
  let counts := syscallCategories.map fun c => (c.1, categoryCount t c.2)
  let categories ← (counts.filter (0 < ·.2)).mapM (withShare totalCalls)
  return ⟨totalCalls, t.syscallStats.size, top, t.errorStats.mostCommon, categories⟩

/-- `generate_report('text')`; nothing without data. -/
def textReport : Except PyError (Option TextReport) :=
  if t.syscallStats.entries.isEmpty then .ok none
  else (generateTextReport t t.syscallStats.total).map some

/-- `generate_report('json')` -/
def jsonReport : Except PyError (Option JsonReport) :=
  if t.syscallStats.entries.isEmpty then .ok none
  else (generateJsonReport t t.syscallStats.total).map some

/-! ## What the tables hold -/

variable {U float} {t : Tables F} {lines lines' : List (List Char)} {line : List Char}

/-- The counters as functions. -/
def Tables.tracer (t : Tables F) : Tracer F :=
  ⟨t.syscallStats.get, t.errorStats.get, t.timingData⟩

theorem get_add_one (s : Tally (List Char)) (k : List Char) :
    (s.add k 1).get = increment s.get k := by
  funext j
  rw [Tally.get_add, increment, update_apply]
  by_cases hj : j = k <;> simp [hj]

/-- **Looked up, the counters in order are those of the parser.** -/
theorem tracer_parseTraceLine :
    (t.parseTraceLine U float line).tracer = parseTraceLine U float t.tracer line := by
  unfold Tables.parseTraceLine Strace.parseTraceLine
  cases traceEntry U float line with
  | none => rfl
  | some e => cases he : e.error <;> simp [Tables.tracer, Tables.add, Tracer.add, get_add_one, he]

/-- **The tables of a file are what the parser makes of it**, with the order kept. -/
theorem tracer_parseLines (t : Tables F) (text : List Char) :
    (t.parseLines U float (readlines (universalNewlines text))).tracer =
      (parseTraceFile U float t.tracer (some text)).1 := by
  show _ = (readlines (universalNewlines text)).foldl (Strace.parseTraceLine U float) t.tracer
  generalize readlines (universalNewlines text) = lines
  induction lines generalizing t with
  | nil => rfl
  | cons line lines ih =>
    rw [List.foldl_cons, ← tracer_parseTraceLine, ← ih]
    rfl

/-- The system call on a line of the trace. -/
def callOn (U : CharTable) (line : List Char) : Option (List Char) :=
  (matchAt (pattern U) line).map fun m => (m.groups 2).getD []

/-- The system call on a line, if the line is taken for an error. -/
def failureOn (U : CharTable) (line : List Char) : Option (List Char) :=
  (matchAt (pattern U) line).bind fun m =>
    if isError ((m.groups 4).getD []) then some ((m.groups 2).getD []) else none

/-- The system calls of a trace. -/
def calls (U : CharTable) (lines : List (List Char)) : List (List Char) :=
  lines.filterMap (callOn U)

/-- Those taken for errors. -/
def failures (U : CharTable) (lines : List (List Char)) : List (List Char) :=
  lines.filterMap (failureOn U)

theorem stats_parseTraceLine (U : CharTable) (float : List Char → Option F) (t : Tables F)
    (line : List Char) :
    (t.parseTraceLine U float line).syscallStats =
        (callOn U line).toList.foldl (fun s k => s.add k 1) t.syscallStats ∧
      (t.parseTraceLine U float line).errorStats =
        (failureOn U line).toList.foldl (fun s k => s.add k 1) t.errorStats := by
  unfold Tables.parseTraceLine traceEntry callOn failureOn
  cases matchAt (pattern U) line with
  | none => exact ⟨rfl, rfl⟩
  | some m => by_cases he : isError ((m.groups 4).getD []) = true <;> simp [Tables.add, he]

theorem foldl_add_filterMap (f : List Char → Option (List Char)) :
    Tally.ofList ((lines ++ [line]).filterMap f) =
      (f line).toList.foldl (fun s k => s.add k 1) (Tally.ofList (lines.filterMap f)) := by
  rw [List.filterMap_append, Tally.ofList, List.foldl_append, ← Tally.ofList]
  cases hf : f line <;> simp [hf]

/-- **After a trace the counters hold its calls and its failures.** -/
theorem stats_parseLines (lines : List (List Char)) :
    (Tables.init.parseLines U float lines).syscallStats = .ofList (calls U lines) ∧
      (Tables.init.parseLines U float lines).errorStats = .ofList (failures U lines) := by
  induction lines using List.reverseRecOn with
  | nil => exact ⟨rfl, rfl⟩
  | append_singleton lines line ih =>
    obtain ⟨hcalls, hfails⟩ := stats_parseTraceLine U float (Tables.init.parseLines U float lines)
      line
    have hlast : Tables.init.parseLines U float (lines ++ [line]) =
        (Tables.init.parseLines U float lines).parseTraceLine U float line := by
      simp [Tables.parseLines]
    rw [hlast, hcalls, hfails, ih.1, ih.2]
    exact ⟨(foldl_add_filterMap _).symm, (foldl_add_filterMap _).symm⟩

/-- A line that is taken for an error is one of a call of that name. -/
theorem callOn_of_failureOn {syscall : List Char} (h : failureOn U line = some syscall) :
    callOn U line = some syscall := by
  unfold failureOn at h
  unfold callOn
  cases hm : matchAt (pattern U) line with
  | none => simp [hm] at h
  | some m =>
    rw [hm, Option.bind_some] at h
    split at h
    · rw [Option.map_some, Option.some.inj h]
    · cases h

/-- No system call has more failures than calls. -/
theorem count_failures_le (lines : List (List Char)) (syscall : List Char) :
    (failures U lines).count syscall ≤ (calls U lines).count syscall := by
  induction lines with
  | nil => exact Nat.le_refl 0
  | cons line lines ih =>
    unfold failures calls at *
    cases hf : failureOn U line with
    | none =>
      rw [List.filterMap_cons_none hf]
      cases hc : callOn U line with
      | none => rwa [List.filterMap_cons_none hc]
      | some k =>
        rw [List.filterMap_cons_some hc]
        exact ih.trans List.count_le_count_cons
    | some k =>
      rw [List.filterMap_cons_some hf, List.filterMap_cons_some (callOn_of_failureOn hf),
        List.count_cons, List.count_cons]
      exact Nat.add_le_add_right ih _

/-! ## The figures -/

theorem percentage_of_ne {count total : Nat} (h : total ≠ 0) :
    percentage count total = .ok (count / total * 100) := if_neg h

theorem mapM_ok {α β : Type} {f : α → Except PyError β} {g : α → β} {l : List α}
    (h : ∀ a ∈ l, f a = .ok (g a)) : l.mapM f = .ok (l.map g) := by
  induction l with
  | nil => rfl
  | cons a l ih =>
    rw [List.mapM_cons, h a List.mem_cons_self, ih fun b hb => h b (List.mem_cons_of_mem a hb)]
    rfl

/-- An item with its share. -/
def shared {α : Type} (total : Nat) (p : α × Nat) : α × Nat × ℚ := (p.1, p.2, p.2 / total * 100)

theorem mapM_withShare {α : Type} {total : Nat} (h : total ≠ 0) (l : List (α × Nat)) :
    l.mapM (withShare total) = .ok (l.map (shared total)) :=
  mapM_ok fun p _ => by rw [withShare, percentage_of_ne h]; rfl

/-- A share of what is not more than the whole. -/
theorem share_le {count total : Nat} (hpos : 0 < count) (hle : count ≤ total) :
    (0 : ℚ) < count / total * 100 ∧ (count : ℚ) / total * 100 ≤ 100 := by
  have hc : (0 : ℚ) < count := by exact_mod_cast hpos
  have ht : (0 : ℚ) < total := by exact_mod_cast hpos.trans_le hle
  have hct : (count : ℚ) ≤ total := by exact_mod_cast hle
  refine ⟨by positivity, ?_⟩
  have := (div_le_one ht).mpr hct
  linarith

/-! ## The text report -/

variable (U float lines) in
/-- What is left of a whole trace. -/
def recorded : Tables F := Tables.init.parseLines U float lines

theorem recorded_nonempty (float : List Char → Option F) (h : calls U lines ≠ []) :
    (recorded U float lines).syscallStats.entries.isEmpty = false ∧
      (recorded U float lines).syscallStats.total = (calls U lines).length ∧
      (calls U lines).length ≠ 0 := by
  rw [recorded, (stats_parseLines lines).1, Tally.total_ofList]
  refine ⟨?_, rfl, by simpa using h⟩
  obtain ⟨k, hk⟩ := List.exists_mem_of_ne_nil _ h
  have hkey := (Tally.mem_keys_ofList (calls U lines)).mpr hk
  rw [List.isEmpty_eq_false_iff]
  rintro hnil
  simp [hnil] at hkey

/-- The counts of a trace are not zero. -/
theorem entry_pos {lines : List (List Char)} {q : List Char × Nat}
    (h : q ∈ (recorded U float lines).syscallStats.entries) : 0 < q.2 := by
  rw [recorded, (stats_parseLines lines).1, Tally.mem_ofList] at h
  rw [h.2]
  exact List.count_pos_iff.mpr h.1

/-- A failing system call has a rate of failures. -/
theorem error_rate {q : List Char × Nat} (h : q ∈ (recorded U float lines).errorStats.mostCommon) :
    q.2 = (failures U lines).count q.1 ∧ 0 < q.2 ∧
      q.2 ≤ (recorded U float lines).syscallStats.get q.1 := by
  rw [Tally.mem_mostCommon, recorded, (stats_parseLines lines).2, Tally.mem_ofList] at h
  rw [recorded, (stats_parseLines lines).1, Tally.get_ofList, h.2]
  exact ⟨rfl, List.count_pos_iff.mpr h.1, count_failures_le lines q.1⟩

/-- The figures of the text report for a trace with calls. -/
theorem textReport_eq (h : calls U lines ≠ []) :
    textReport (recorded U float lines) = .ok (some
      ⟨(calls U lines).length, (recorded U float lines).syscallStats.size,
        ((recorded U float lines).syscallStats.mostCommon.take 10).map
          (shared (calls U lines).length),
        ((recorded U float lines).errorStats.mostCommon.take 5).map fun q =>
          shared ((recorded U float lines).syscallStats.get q.1) q,
        (categoryStats (recorded U float lines)).mostCommon.map
          (shared (calls U lines).length)⟩) := by
  obtain ⟨hempty, htotal, hne⟩ := recorded_nonempty float h
  have herrors : ((recorded U float lines).errorStats.mostCommon.take 5).mapM (fun q =>
      withShare ((recorded U float lines).syscallStats.get q.1) q) = .ok
        (((recorded U float lines).errorStats.mostCommon.take 5).map fun q =>
          shared ((recorded U float lines).syscallStats.get q.1) q) := by
    refine mapM_ok fun q hq => ?_
    obtain ⟨-, hpos, hle⟩ := error_rate (List.mem_of_mem_take hq)
    rw [withShare, percentage_of_ne (by omega)]
    rfl
  rw [textReport, hempty, htotal, generateTextReport, mapM_withShare hne, mapM_withShare hne,
    herrors]
  rfl

/-- **The text report of any trace**: it is never cut short by a division by zero; the total is the
number of lines with a call and the sum over the categories; every rate of failures is that of a
call that fails, above 0 and at most 100 per cent. -/
theorem text_report_counts (U : CharTable) (float : List Char → Option F)
    (lines : List (List Char)) :
    (calls U lines = [] ∧ textReport (recorded U float lines) = .ok none) ∨
      ∃ r, textReport (recorded U float lines) = .ok (some r) ∧
        r.totalCalls = (calls U lines).length ∧
        (r.categories.map fun c => c.2.1).sum = r.totalCalls ∧
        ∀ e ∈ r.errors, e.2.1 = (failures U lines).count e.1 ∧ 0 < e.2.2 ∧ e.2.2 ≤ 100 := by
  by_cases h : calls U lines = []
  · refine .inl ⟨h, ?_⟩
    have hnil : (recorded U float lines).syscallStats = .ofList [] := by
      rw [recorded, (stats_parseLines lines).1, h]
    rw [textReport, hnil]
    rfl
  · refine .inr ⟨_, textReport_eq h, rfl, ?_, fun e he => ?_⟩
    · have hsum : (categoryStats (recorded U float lines)).total = (calls U lines).length := by
        rw [categoryStats, Tally.total_regroup]
        exact (recorded_nonempty float h).2.1
      rw [← hsum, Tally.total, List.map_map]
      exact ((List.perm_insertionSort _ _).map _).sum_eq
    · obtain ⟨q, hq, rfl⟩ := List.mem_map.mp he
      obtain ⟨hcount, hpos, hle⟩ := error_rate (List.mem_of_mem_take hq)
      exact ⟨hcount, share_le hpos hle⟩

/-! ## The two reports -/

theorem categories_nodup : (syscallCategories.map Prod.fst).Nodup := by decide

theorem names_nodup : (syscallCategories.flatMap Prod.snd).Nodup := by decide

theorem other_not_mem : Category.other ∉ syscallCategories.map Prod.fst := by decide

theorem mem_categories {c : Category} (h : c ≠ .other) : c ∈ syscallCategories.map Prod.fst := by
  cases c with
  | other => exact (h rfl).elim
  | fileOperations | processControl | memoryManagement | networkOperations | signals
  | timeOperations => decide

/-- Both ways of counting a category agree. -/
theorem categoryCount_eq (t : Tables F) {g : Category × List (List Char)}
    (hg : g ∈ syscallCategories) : categoryCount t g.2 = (categoryStats t).get g.1 :=
  (Tally.get_regroup_groupOf categories_nodup names_nodup other_not_mem hg).symm

/-- The categories with their counts, as the JSON report has them. -/
def categoryCounts (t : Tables F) : List (Category × Nat) :=
  (syscallCategories.map fun c => (c.1, categoryCount t c.2)).filter (0 < ·.2)

theorem categoryCounts_perm (hpos : ∀ q ∈ t.syscallStats.entries, 0 < q.2) :
    (categoryCounts t).Perm ((categoryStats t).mostCommon.filter (·.1 ≠ .other)) := by
  have hleft : (categoryCounts t).Nodup := by
    apply List.Nodup.filter
    apply List.Nodup.of_map Prod.fst
    rw [List.map_map]
    exact categories_nodup
  have hright : ((categoryStats t).mostCommon.filter (·.1 ≠ .other)).Nodup := by
    apply List.Nodup.filter
    exact (List.perm_insertionSort _ _).nodup_iff.mpr (categoryStats t).nodup.of_map
  refine (List.perm_ext_iff_of_nodup hleft hright).mpr fun q => ?_
  rw [List.mem_filter, Tally.mem_mostCommon, categoryCounts, List.mem_filter, List.mem_map]
  simp only [decide_eq_true_eq]
  constructor
  · rintro ⟨⟨g, hg, rfl⟩, hq⟩
    dsimp only at hq ⊢
    rw [categoryCount_eq t hg] at hq ⊢
    refine ⟨Tally.mem_of_get rfl (Nat.ne_of_gt hq), fun h => ?_⟩
    exact other_not_mem (h ▸ List.mem_map_of_mem hg)
  · rintro ⟨hq, hother⟩
    obtain ⟨g, hg, hgq⟩ := List.mem_map.mp (mem_categories hother)
    refine ⟨⟨g, hg, ?_⟩, Tally.pos_regroup hpos q hq⟩
    rw [categoryCount_eq t hg, hgq, Tally.get_of_mem hq]

theorem jsonReport_eq (h : calls U lines ≠ []) :
    jsonReport (recorded U float lines) = .ok (some
      ⟨(calls U lines).length, (recorded U float lines).syscallStats.size,
        ((recorded U float lines).syscallStats.mostCommon.take 10).map
          (shared (calls U lines).length),
        (recorded U float lines).errorStats.mostCommon,
        (categoryCounts (recorded U float lines)).map (shared (calls U lines).length)⟩) := by
  obtain ⟨hempty, htotal, hne⟩ := recorded_nonempty float h
  rw [jsonReport, hempty, htotal, generateJsonReport, mapM_withShare hne]
  dsimp only
  rw [← categoryCounts, mapM_withShare hne]
  rfl

/-- **Text and JSON say the same of any trace**: the same total, the same kinds of calls, the same
top ten, and, apart from `other`, which the JSON report does not have, the same categories with the
same counts and shares, in another order. -/
theorem reports_agree (U : CharTable) (float : List Char → Option F) (lines : List (List Char)) :
    (textReport (recorded U float lines) = .ok none ∧
      jsonReport (recorded U float lines) = .ok none) ∨
      ∃ r j, textReport (recorded U float lines) = .ok (some r) ∧
        jsonReport (recorded U float lines) = .ok (some j) ∧
        r.totalCalls = j.totalSyscalls ∧ r.unique = j.uniqueSyscalls ∧ r.top = j.topSyscalls ∧
        j.categories.Perm (r.categories.filter (·.1 ≠ .other)) := by
  by_cases h : calls U lines = []
  · have hnil : (recorded U float lines).syscallStats = .ofList [] := by
      rw [recorded, (stats_parseLines lines).1, h]
    refine .inl ⟨?_, ?_⟩
    · rw [textReport, hnil]
      rfl
    · rw [jsonReport, hnil]
      rfl
  · refine .inr ⟨_, _, textReport_eq h, jsonReport_eq h, rfl, rfl, rfl, ?_⟩
    rw [List.filter_map]
    exact (categoryCounts_perm fun q hq => entry_pos hq).map _

/-- **The order of the lines decides nothing but which of several equally frequent calls come
first**: traces with the same lines have the same totals, the same counts and shares in the top ten,
the same failures, and the same categories in the JSON report. -/
theorem report_perm (U : CharTable) (float : List Char → Option F) (h : lines.Perm lines')
    (hcalls : calls U lines ≠ []) : ∃ r r' j j',
      textReport (recorded U float lines) = .ok (some r) ∧
        textReport (recorded U float lines') = .ok (some r') ∧
        jsonReport (recorded U float lines) = .ok (some j) ∧
        jsonReport (recorded U float lines') = .ok (some j') ∧
        r.totalCalls = r'.totalCalls ∧ r.unique = r'.unique ∧
        r.top.map Prod.snd = r'.top.map Prod.snd ∧ r.categories.Perm r'.categories ∧
        j.errors.Perm j'.errors ∧ j.categories = j'.categories := by
  have hperm : (calls U lines).Perm (calls U lines') := h.filterMap _
  have hcalls' : calls U lines' ≠ [] := fun hnil => hcalls (hnil ▸ hperm).eq_nil
  have hstats : (recorded U float lines).syscallStats.entries.Perm
      (recorded U float lines').syscallStats.entries := by
    rw [recorded, recorded, (stats_parseLines lines).1, (stats_parseLines lines').1]
    exact Tally.ofList_perm hperm
  have herrors : (recorded U float lines).errorStats.entries.Perm
      (recorded U float lines').errorStats.entries := by
    rw [recorded, recorded, (stats_parseLines lines).2, (stats_parseLines lines').2]
    exact Tally.ofList_perm (h.filterMap _)
  have hget : (recorded U float lines).syscallStats.get =
      (recorded U float lines').syscallStats.get := by
    funext k
    rw [recorded, recorded, (stats_parseLines lines).1, (stats_parseLines lines').1,
      Tally.get_ofList, Tally.get_ofList, hperm.count_eq]
  have htop := Tally.mostCommon_counts_perm hstats
  refine ⟨_, _, _, _, textReport_eq hcalls, textReport_eq hcalls', jsonReport_eq hcalls,
    jsonReport_eq hcalls', hperm.length_eq, hstats.length_eq, ?_, ?_, ?_, ?_⟩
  · -- the shares depend on the counts only
    have hsnd (l : List (List Char × Nat)) (n : Nat) : (l.map (shared n)).map Prod.snd =
        (l.map Prod.snd).map fun c : Nat => (c, (c : ℚ) / n * 100) := by
      simp [shared, Function.comp_def]
    dsimp only
    rw [hsnd, hsnd, List.map_take, List.map_take, List.map_take, List.map_take, htop,
      hperm.length_eq]
  · dsimp only
    rw [hperm.length_eq]
    refine List.Perm.map _ (((List.perm_insertionSort _ _).trans ?_).trans
      (List.perm_insertionSort _ _).symm)
    exact Tally.regroup_perm (fun q hq => entry_pos hq) hstats
  · exact ((List.perm_insertionSort _ _).trans herrors).trans (List.perm_insertionSort _ _).symm
  · dsimp only
    rw [categoryCounts, categoryCounts, hperm.length_eq]
    simp only [categoryCount, hget]

/-- A call that succeeds and one that is taken for an error. -/
def twoLines : List (List Char) :=
  ["1:2:3.4 brk(0) = 5".toList, "1:2:3.5 ioctl(1) = -2".toList]

theorem report_perm_two : ∃ r r' j j',
    textReport (recorded asciiTable micros twoLines) = .ok (some r) ∧
      textReport (recorded asciiTable micros twoLines.reverse) = .ok (some r') ∧
      jsonReport (recorded asciiTable micros twoLines) = .ok (some j) ∧
      jsonReport (recorded asciiTable micros twoLines.reverse) = .ok (some j') ∧
      r.totalCalls = r'.totalCalls ∧ r.unique = r'.unique ∧
      r.top.map Prod.snd = r'.top.map Prod.snd ∧ r.categories.Perm r'.categories ∧
      j.errors.Perm j'.errors ∧ j.categories = j'.categories :=
  report_perm asciiTable micros (List.reverse_perm twoLines).symm (by decide +kernel)

end OSCompas.Strace
