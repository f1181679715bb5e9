import OSCompas.Lib.Walk

/-!
# Process trees over psutil (`lab1-2-process-monitor/src/process_manager.py`, `process_monitor.py`)

Both programs print a process and then, indented, its children, and ask psutil when they get there.
`process_manager.py` keeps a set of the PIDs it has begun.  Two exceptions end them on the way: a
`print` of a character that the encoding of the output lacks, and a call nested deeper than Python's
recursion limit allows.

* `Processes` — what psutil answers, which may change from one question to the next;
* `displayTreeNode`, `displayProcessTree` — of `process_manager.py`;
* `printTree` — of `process_monitor.py`;
* `readLines` with `Manager.read` or `Monitor.read` — the depths and the PIDs, read from the text.

Principal results: `displayProcessTree_shows`, `displayProcessTree_complete` and `printTree_reads`.
-/

set_option autoImplicit false

namespace OSCompas.Psutil

open Relation Walk Forest

/-- At each question: the text for a process, and the PIDs of its children; `none` is
`NoSuchProcess` or `AccessDenied`. -/
abbrev Processes := Source ℕ (List Char)

/-- The lines are the arguments of `print`. -/
abbrev Output := State ℕ (List Char)

/-- What `print` has written. -/
def text (s : Output) : List Char := s.lines.flatMap (· ++ ['\n'])

variable (encodes : Char → Bool) (S : Processes) (limit : ℕ)

/-- Every character that was to be printed has its code in the output; for another `print` raises
`UnicodeEncodeError`, as it does for those that Python has for the bytes it cannot decode. -/
def encoded (s : Output) : Bool := s.lines.all fun line => line.all encodes

/-! ## process_manager.py -/

/-- `prefix` and `children_prefix`. -/
abbrev Prefixes := List Char × List Char

/-- The argument of `print`: `prefix`, the PID and what follows it, the name in colour and the
figures. -/
def managerStyle : Style ℕ (List Char) Prefixes (List Char) where
  below p last :=
    if last then (p.2 ++ "└── ".toList, p.2 ++ "    ".toList)
    else (p.2 ++ "├── ".toList, p.2 ++ "│   ".toList)
  line p pid info := p.1 ++ (Nat.toDigits 10 pid ++ ' ' :: info)

/-- `_display_tree_node`, with the PIDs of `visited` in `begun`; `limit` of its calls can be nested.
There is no result if an exception comes through: it handles `NoSuchProcess` and `AccessDenied`
only. -/
def displayTreeNode (p : Prefixes) (pid : ℕ) (s : Output) : Option Output :=
  (visit managerStyle S once limit p pid s).filter (encoded encodes)

/-- The loop of `display_process_tree`, with the text for each root. -/
def displayRoots : List ℕ → ℕ → Option (List (List Char))
  | [], _ => some []
  | root :: roots, clock => do
    let s ← displayTreeNode encodes S limit ([], []) root ⟨clock, [], []⟩
    let rest ← displayRoots roots s.clock
    return text s :: rest

/-- The first two lines. -/
def title : List Char :=
  "\x1b[96m系统进程树:\x1b[0m\n".toList ++ (List.replicate 60 '=' ++ ['\n'])

/-- `display_process_tree`: the title, and the text for each of the roots that `get_process_tree`
finds. -/
def displayProcessTree (roots : List ℕ) (clock : ℕ) : Option (List Char × List (List Char)) :=
  if title.all encodes then (displayRoots encodes S limit roots clock).map (title, ·) else none

/-! ## process_monitor.py -/

def monitorStyle : Style ℕ (List Char) (List Char) (List Char) where
  below indent last := indent ++ (if last then "    " else "│   ").toList
  line indent pid name :=
    indent ++ ("├─ ".toList ++ (name ++ (" (".toList ++ (Nat.toDigits 10 pid ++ [')']))))

/-- `_print_tree`, which leaves nothing out: nothing depends on `begun`. -/
def printTree (indent : List Char) (pid : ℕ) (s : Output) : Option Output :=
  (visit monitorStyle S never limit indent pid s).filter (encoded encodes)

/-! ## Reading the text -/

/-- Each line of a text, read. -/
def readLines (read : List Char → ℕ × ℕ) (text : List Char) : List (ℕ × ℕ) :=
  (text.splitOn '\n').dropLast.map read

/-- The depth and the PID on a line of `process_manager.py`. -/
def Manager.read (line : List Char) : ℕ × ℕ :=
  ((line.takeWhile (!·.isDigit)).length / 4,
    Nat.ofDigitChars 10 ((line.dropWhile (!·.isDigit)).takeWhile Char.isDigit) 0)

/-- The depth and the PID on a line of `process_monitor.py`, whatever the name. -/
def Monitor.read (line : List Char) : ℕ × ℕ :=
  ((line.takeWhile (· ≠ '├')).length / 4,
    Nat.ofDigitChars 10 ((line.reverse.drop 1).takeWhile Char.isDigit).reverse 0)

/-- The output has a code for a character, and it does not end a line. -/
def Clear (line : List Char) : Prop := ∀ c ∈ line, encodes c = true ∧ c ≠ '\n'

/-- The characters that both programs draw with. -/
def signs : List Char := ['└', '├', '│', '─', ' ', '(', ')']

/-- What is printed can be encoded, and the texts for the processes are on one line. -/
structure Printable : Prop where
  drawing : ∀ c ∈ signs, encodes c = true
  digits : ∀ c : Char, c.isDigit = true → encodes c = true
  info : ∀ t pid info, S.label t pid = some info → Clear encodes info

variable {encodes S limit} {pid root d clock : ℕ} {info name indent : List Char} {p : Prefixes}
  {s t : Output}

theorem readLines_text {read : List Char → ℕ × ℕ} (h : ∀ line ∈ s.lines, Clear encodes line) :
    readLines read (text s) = s.lines.map read := by
  have hsplit : ∀ lines : List (List Char), (∀ line ∈ lines, Clear encodes line) →
      (lines.flatMap (· ++ ['\n'])).splitOn '\n' = lines ++ [[]] := by
    intro lines h
    induction lines with
    | nil => rfl
    | cons line lines ih =>
      have hline : '\n' ∉ line := fun hmem => (h line List.mem_cons_self '\n' hmem).2 rfl
      rw [List.flatMap_cons, List.append_assoc, List.singleton_append,
        List.splitOn_append_cons_self_of_not_mem hline,
        ih fun l hl => h l (List.mem_cons_of_mem line hl), List.cons_append]
  rw [readLines, text, hsplit s.lines h, List.dropLast_concat]

theorem encoded_of (h : ∀ line ∈ s.lines, Clear encodes line) : encoded encodes s = true :=
  List.all_eq_true.mpr fun line hline => List.all_eq_true.mpr fun c hc => (h line hline c hc).1

theorem isDigit_toDigits (pid : ℕ) : ∀ c ∈ Nat.toDigits 10 pid, c.isDigit = true :=
  fun _ hc => Nat.isDigit_of_mem_toDigits (by decide) (by decide) hc

theorem takeWhile_stop {q : Char → Bool} {l r : List Char} {c : Char} (hl : ∀ x ∈ l, q x = true)
    (hc : q c = false) : (l ++ c :: r).takeWhile q = l := by
  rw [List.takeWhile_append_of_pos hl, List.takeWhile_cons_of_neg (by simp [hc]), List.append_nil]

theorem not_isDigit_of_signs : ∀ c ∈ signs, c.isDigit = false := by simp [signs]

theorem Printable.clear_signs (h : Printable encodes S) {l : List Char} (hl : l ⊆ signs) :
    Clear encodes l := fun c hc =>
  ⟨h.drawing c (hl hc), fun hn => by
    have hmem : c ∈ signs := hl hc
    subst hn
    revert hmem
    decide⟩

theorem Printable.clear_digits (h : Printable encodes S) (pid : ℕ) :
    Clear encodes (Nat.toDigits 10 pid) := fun c hc =>
  ⟨h.digits c (isDigit_toDigits pid c hc), fun hn => by
    have hdigit := isDigit_toDigits pid c hc
    subst hn
    revert hdigit
    decide⟩

theorem Clear.append {l r : List Char} (hl : Clear encodes l) (hr : Clear encodes r) :
    Clear encodes (l ++ r) := fun c hc =>
  (List.mem_append.mp hc).elim (hl c) (hr c)

/-- Both prefixes at a depth: four signs for each step. -/
structure Manager.Drawn (p : Prefixes) (d : ℕ) : Prop where
  line : p.1 ⊆ signs
  below : p.2 ⊆ signs
  length_line : p.1.length = 4 * d
  length_below : p.2.length = 4 * d

theorem Manager.Drawn.step (h : Manager.Drawn p d) (last : Bool) :
    Manager.Drawn (managerStyle.below p last) (d + 1) := by
  cases last <;> constructor
  all_goals
    simp only [managerStyle, Bool.false_eq_true, if_true, if_false, List.length_append,
      h.length_below, List.append_subset]
    try rfl
  all_goals exact ⟨h.below, by simp [signs]⟩

theorem Manager.read_line (h : Manager.Drawn p d) :
    Manager.read (managerStyle.line p pid info) = (d, pid) := by
  obtain ⟨c, ds, hds⟩ := List.exists_cons_of_ne_nil (Nat.toDigits_ne_nil (n := pid) (b := 10))
  have hc : c.isDigit = true := isDigit_toDigits pid c (hds ▸ List.mem_cons_self)
  have hp : ∀ x ∈ p.1, (!x.isDigit) = true := fun x hx => by
    rw [not_isDigit_of_signs x (h.line hx)]
    rfl
  have hfirst : (managerStyle.line p pid info).takeWhile (!·.isDigit) = p.1 := by
    show (p.1 ++ (Nat.toDigits 10 pid ++ _)).takeWhile _ = _
    rw [hds, List.cons_append]
    exact takeWhile_stop hp (by rw [hc]; rfl)
  have hrest : (managerStyle.line p pid info).dropWhile (!·.isDigit) =
      Nat.toDigits 10 pid ++ ' ' :: info := by
    show (p.1 ++ (Nat.toDigits 10 pid ++ _)).dropWhile _ = _
    rw [List.dropWhile_append_of_pos hp, hds, List.cons_append,
      List.dropWhile_cons_of_neg (by simp [hc])]
  rw [Manager.read, hfirst, hrest, takeWhile_stop (isDigit_toDigits pid) rfl, h.length_line,
    Nat.ofDigitChars_ten_toDigits, Nat.mul_div_cancel_left d (by decide)]

/-- The indent at a depth. -/
structure Monitor.Drawn (indent : List Char) (d : ℕ) : Prop where
  line : indent ⊆ ['│', ' ']
  length_line : indent.length = 4 * d

theorem Monitor.Drawn.step (h : Monitor.Drawn indent d) (last : Bool) :
    Monitor.Drawn (monitorStyle.below indent last) (d + 1) := by
  cases last <;> constructor
  all_goals
    simp only [monitorStyle, Bool.false_eq_true, if_true, if_false, List.length_append,
      h.length_line, List.append_subset]
    try rfl
  all_goals exact ⟨h.line, by simp⟩

theorem Monitor.read_line (h : Monitor.Drawn indent d) :
    Monitor.read (monitorStyle.line indent pid name) = (d, pid) := by
  have hstem : ∀ x ∈ ['│', ' '], decide (x ≠ '├') = true := by simp
  have hfirst : (monitorStyle.line indent pid name).takeWhile (· ≠ '├') = indent :=
    takeWhile_stop (fun x hx => hstem x (h.line hx)) rfl
  have hlast : (monitorStyle.line indent pid name).reverse.drop 1 =
      (Nat.toDigits 10 pid).reverse ++
        '(' :: ' ' :: (name.reverse ++ ("├─ ".toList.reverse ++ indent.reverse)) := by
    simp [monitorStyle]
  rw [Monitor.read, hfirst, hlast, takeWhile_stop (fun x hx =>
    isDigit_toDigits pid x (List.mem_reverse.mp hx)) rfl, List.reverse_reverse, h.length_line,
    Nat.ofDigitChars_ten_toDigits, Nat.mul_div_cancel_left d (by decide)]

/-- What both programs ask, whatever text they print. -/
def unnamed (S : Processes) : Source ℕ Unit :=
  ⟨fun t n => (S.label t n).map fun _ => (), S.children⟩

/-! ### Any style that can be read -/

section Legible

variable {γ : Type} {T : Style ℕ (List Char) γ (List Char)} {read : List Char → ℕ × ℕ}
  {Drawn : γ → ℕ → Prop} {c : γ} {skip : List ℕ → ℕ → Bool}

/-- The lines of a style can be printed and read back where they are `Drawn` at a depth. -/
structure Legible (T : Style ℕ (List Char) γ (List Char)) (read : List Char → ℕ × ℕ)
    (Drawn : γ → ℕ → Prop) : Prop where
  step : ∀ c d last, Drawn c d → Drawn (T.below c last) (d + 1)
  read_line : ∀ c d pid info, Drawn c d → read (T.line c pid info) = (d, pid)
  clear_line : ∀ encodes S c d pid info, Printable encodes S → Drawn c d → Clear encodes info →
    Clear encodes (T.line c pid info)

/-- Read line by line, a walk in the style is the walk with depths. -/
theorem Legible.read_visit (hT : Legible T read Drawn) (S : Processes)
    (skip : List ℕ → ℕ → Bool) (limit pid : ℕ) (hc : Drawn c d) (s : Output) :
    (visit T S skip limit c pid s).map (State.map read) =
      visit depths (unnamed S) skip limit d pid (s.map read) := by
  symm
  refine visit_map (R := Drawn) (fun _ => ()) read ?_ ?_ ?_ ?_ limit hc pid s
  · exact fun _ _ => rfl
  · rfl
  · exact fun c d last h => hT.step c d last h
  · exact fun c d pid info h => (hT.read_line c d pid info h).symm

/-- **What is printed in such a style is the walk with depths**, for a reader of the text. -/
theorem Legible.written (hT : Legible T read Drawn) (hS : Printable encodes S) (hc : Drawn c d)
    {u : State ℕ (ℕ × ℕ)}
    (hu : visit depths (unnamed S) skip limit d pid ⟨clock, [], []⟩ = some u) :
    ∃ s, (visit T S skip limit c pid ⟨clock, [], []⟩).filter (encoded encodes) = some s ∧
      readLines read (text s) = u.lines := by
  have hread := hT.read_visit S skip limit pid hc ⟨clock, [], []⟩
  rw [show State.map read (⟨clock, [], []⟩ : Output) = ⟨clock, [], []⟩ from rfl, hu] at hread
  obtain ⟨s, hs, rfl⟩ := Option.map_eq_some_iff.mp hread
  have hclear : ∀ line ∈ s.lines, Clear encodes line := by
    refine visit_forall_lines (R := fun c => ∃ d, Drawn c d) ?_ ?_ hs ⟨d, hc⟩ (by simp)
    · exact fun c last ⟨d, hc⟩ => ⟨d + 1, hT.step c d last hc⟩
    · exact fun t c pid info ⟨d, hc⟩ hinfo =>
        hT.clear_line encodes S c d pid info hS hc (hS.info t pid info hinfo)
  exact ⟨s, by rw [hs, Option.filter_some_pos (encoded_of hclear)], readLines_text hclear⟩

end Legible

theorem Manager.legible : Legible managerStyle Manager.read Manager.Drawn where
  step _ _ last h := h.step last
  read_line _ _ _ _ h := Manager.read_line h
  clear_line encodes S p d pid info hS h hinfo := by
    have hblank : Clear encodes [' '] := hS.clear_signs (by decide)
    exact (hS.clear_signs h.line).append ((hS.clear_digits pid).append (hblank.append hinfo))

theorem Monitor.legible : Legible monitorStyle Monitor.read Monitor.Drawn where
  step _ _ last h := h.step last
  read_line _ _ _ _ h := Monitor.read_line h
  clear_line encodes S indent d pid name hS h hname := by
    have hindent : Clear encodes indent := hS.clear_signs (List.Subset.trans h.line (by decide))
    have hclose : Clear encodes [')'] := hS.clear_signs (by decide)
    exact hindent.append ((hS.clear_signs (by simp [signs])).append (hname.append
      ((hS.clear_signs (by simp [signs])).append ((hS.clear_digits pid).append hclose))))

theorem drawn_manager : Manager.Drawn ([], []) 0 := by constructor <;> simp

theorem drawn_monitor : Monitor.Drawn [] 0 := by constructor <;> simp

/-! ## process_manager.py shows a tree -/

/-- What a reader sees of a root: no PID twice, and every line but the root's under the one of a
process that had it among its children. -/
structure Shows (S : Processes) (root : ℕ) (es : List (ℕ × ℕ)) : Prop where
  nodup : (es.map Prod.snd).Nodup
  block : Block S [] 0 root es

/-- Every process that psutil can name. -/
def Within (S : Processes) (pids : Finset ℕ) : Prop :=
  ∀ t pid kids, S.children t pid = some kids → ∀ k ∈ kids, k ∈ pids

variable {pids : Finset ℕ} {roots : List ℕ}

/-- What holds of the text for each root holds of all. -/
theorem displayProcessTree_of {Q : ℕ → List Char → Prop} (htitle : title.all encodes = true)
    (h : ∀ root ∈ roots, ∀ clock, ∃ s,
      displayTreeNode encodes S limit ([], []) root ⟨clock, [], []⟩ = some s ∧ Q root (text s))
    (clock : ℕ) : ∃ texts, displayProcessTree encodes S limit roots clock = some (title, texts) ∧
      List.Forall₂ Q roots texts := by
  have hroots : ∃ texts, displayRoots encodes S limit roots clock = some texts ∧
      List.Forall₂ Q roots texts := by
    induction roots generalizing clock with
    | nil => exact ⟨[], rfl, .nil⟩
    | cons root roots ih =>
      obtain ⟨s, hs, hroot⟩ := h root List.mem_cons_self clock
      obtain ⟨texts, htexts, hall⟩ := ih (fun r hr => h r (List.mem_cons_of_mem root hr)) s.clock
      refine ⟨text s :: texts, ?_, .cons hroot hall⟩
      simp [displayRoots, hs, htexts]
  obtain ⟨texts, htexts, hall⟩ := hroots
  refine ⟨texts, ?_, hall⟩
  rw [displayProcessTree, if_pos htitle, htexts, Option.map_some]

/-- A root has its text, and a reader sees the walk in it. -/
theorem displayTreeNode_ends (hS : Printable encodes S) (hpids : Within S pids)
    (hroot : root ∈ pids) (hlimit : pids.card < limit) (clock : ℕ) :
    ∃ s u, displayTreeNode encodes S limit ([], []) root ⟨clock, [], []⟩ = some s ∧
      visit depths (unnamed S) once limit 0 root ⟨clock, [], []⟩ = some u ∧
      readLines Manager.read (text s) = u.lines := by
  have hroom : room pids (⟨clock, [], []⟩ : State ℕ (ℕ × ℕ)).begun < limit := by
    simpa [room] using hlimit
  obtain ⟨u, hu⟩ := visit_ends (S := unnamed S) (T := depths) (c := 0) hpids hroot hroom
  obtain ⟨s, hs, hread⟩ := Manager.legible.written hS drawn_manager hu
  exact ⟨s, u, hs, hu, hread⟩

theorem shows_of_visit {u : State ℕ (ℕ × ℕ)}
    (h : visit depths (unnamed S) once limit 0 root ⟨clock, [], []⟩ = some u) :
    Shows S root u.lines := by
  constructor
  · obtain ⟨hsub, hnodup⟩ := visit_lines h ⟨List.Sublist.refl _, List.nodup_nil⟩
    exact List.nodup_reverse.mp (hsub.nodup hnodup)
  · obtain ⟨es, hes, hblock⟩ := visit_nested h
    rw [List.nil_append] at hes
    rw [hes]
    exact hblock

/-- **The process tree is printed to its end, whatever psutil answers from one question to the
next**, where what it answers can be printed on one line and the recursion limit exceeds the number
of the processes: for each root in turn no process twice, and each below one that had it as a child,
which can be seen from the text. -/
theorem displayProcessTree_shows (htitle : title.all encodes = true) (hS : Printable encodes S)
    (hpids : Within S pids) (hroots : ∀ root ∈ roots, root ∈ pids) (hlimit : pids.card < limit)
    (clock : ℕ) :
    ∃ texts, displayProcessTree encodes S limit roots clock = some (title, texts) ∧
      List.Forall₂ (fun root text => Shows S root (readLines Manager.read text)) roots texts := by
  refine displayProcessTree_of htitle (fun root hroot clock => ?_) clock
  obtain ⟨s, u, hs, hu, hread⟩ := displayTreeNode_ends hS hpids (hroots root hroot) hlimit clock
  exact ⟨s, hs, hread ▸ shows_of_visit hu⟩

/-- Processes 0 and 1 are each other's children, at different moments. -/
def swapping : Processes where
  label _ pid := if pid = 3 then none else some "sh".toList
  children t pid := if pid = t % 2 then some [1, 2, 3] else some [0, 1]

/-- On an output in UTF-8. -/
theorem displayProcessTree_shows_swapping :
    ∃ texts, displayProcessTree (fun _ => true) swapping 5 [0, 1] 0 = some (title, texts) ∧
      List.Forall₂ (fun root text => Shows swapping root (readLines Manager.read text))
        [0, 1] texts := by
  have hS : Printable (fun _ => true) swapping := by
    refine ⟨fun _ _ => rfl, fun _ _ => rfl, fun t pid info h => ?_⟩
    simp only [swapping, Option.ite_none_left_eq_some, Option.some.injEq] at h
    obtain ⟨-, rfl⟩ := h
    simp [Clear]
  have hpids : Within swapping {0, 1, 2, 3} := by
    intro t pid kids h k hk
    by_cases hp : pid = t % 2
    · simp only [swapping, hp, if_true, Option.some.injEq] at h
      subst h
      revert k
      decide
    · simp only [swapping, hp, if_false, Option.some.injEq] at h
      subst h
      revert k
      decide
  exact displayProcessTree_shows (by decide) hS hpids (by decide) (by decide) 0

section Steady

variable {label label' : ℕ → Option (List Char)} {children : ℕ → Option (List ℕ)}

theorem unnamed_steady : unnamed (steady label children) =
    steady (fun pid => (label pid).map fun _ => ()) children := rfl

theorem leads_unnamed : Leads (fun pid => (label pid).map fun _ => ()) children =
    Leads label children := by
  funext a b
  simp [Leads]

/-- **While nothing changes the tree is complete**: the lines of a root are of the processes below
it that psutil can name and reach, whatever cycles there are. -/
theorem displayProcessTree_complete (htitle : title.all encodes = true)
    (hS : Printable encodes (steady label children)) (hpids : Within (steady label children) pids)
    (hroots : ∀ root ∈ roots, root ∈ pids) (hlimit : pids.card < limit) (clock : ℕ) :
    ∃ texts, displayProcessTree encodes (steady label children) limit roots clock =
        some (title, texts) ∧
      List.Forall₂ (fun root text =>
        Shows (steady label children) root (readLines Manager.read text) ∧
        ∀ pid, pid ∈ (readLines Manager.read text).map Prod.snd ↔
          ReflTransGen (Leads label children) root pid ∧ (label pid).isSome = true)
        roots texts := by
  refine displayProcessTree_of htitle (fun root hroot clock => ?_) clock
  obtain ⟨s, u, hs, hu, hread⟩ := displayTreeNode_ends hS hpids (hroots root hroot) hlimit clock
  refine ⟨s, hs, hread ▸ shows_of_visit hu, fun pid => ?_⟩
  rw [unnamed_steady] at hu
  rw [hread, visit_written hu (fun _ => by simp) pid, mem_begun_iff hu rfl, leads_unnamed,
    Option.isSome_map]

/-- A process and its two children, one of which psutil may not read. -/
def family (pid : ℕ) : Option (List ℕ) := if pid = 1 then some [2, 3] else some []

theorem within_family (label : ℕ → Option (List Char)) :
    Within (steady label family) {1, 2, 3} := by
  intro t pid kids h k hk
  by_cases hp : pid = 1
  · simp only [steady, family, hp, if_true, Option.some.injEq] at h
    subst h
    revert k
    decide
  · simp only [steady, family, hp, if_false, Option.some.injEq] at h
    subst h
    cases hk

/-- The names in it. -/
def nameless (name : Char) (pid : ℕ) : Option (List Char) := if pid = 3 then none else some [name]

theorem printable_family {name : Char} (hname : name ≠ '\n') :
    Printable (fun _ => true) (steady (nameless name) family) := by
  refine ⟨fun _ _ => rfl, fun _ _ => rfl, fun t pid info h => ?_⟩
  simp only [steady, nameless, Option.ite_none_left_eq_some, Option.some.injEq] at h
  obtain ⟨-, rfl⟩ := h
  simpa [Clear] using hname

theorem displayProcessTree_complete_family :
    ∃ texts, displayProcessTree (fun _ => true) (steady (nameless 'x') family) 4 [1] 0 =
        some (title, texts) ∧
      List.Forall₂ (fun root text =>
        Shows (steady (nameless 'x') family) root (readLines Manager.read text) ∧
        ∀ pid, pid ∈ (readLines Manager.read text).map Prod.snd ↔
          ReflTransGen (Leads (nameless 'x') family) root pid ∧ (nameless 'x' pid).isSome = true)
        [1] texts :=
  displayProcessTree_complete (by decide) (printable_family (by decide)) (within_family _)
    (by decide) (by decide) 0

/-! ## process_monitor.py shows the same tree -/

/-- **Both programs show the same tree** of the same processes, where each has one parent, none is
above itself and psutil can name the same ones to both: both end, and read from their texts are the
same depths and PIDs in the same order. -/
theorem printTree_reads {limit' : ℕ} (hS : Printable encodes (steady label children))
    (hS' : Printable encodes (steady label' children))
    (hlabel : ∀ pid, (label' pid).isSome = (label pid).isSome)
    (hparent : ∀ a b k, Leads label children a k → Leads label children b k → a = b)
    (hacyclic : ∀ a, ¬ TransGen (Leads label children) a a)
    (hnodup : ∀ pid kids, children pid = some kids → kids.Nodup)
    (hpids : Within (steady label children) pids) (hroot : root ∈ pids)
    (hlimit : pids.card < limit) (hlimit' : pids.card < limit') (clock : ℕ) :
    ∃ s s', displayTreeNode encodes (steady label children) limit ([], []) root
        ⟨clock, [], []⟩ = some s ∧
      printTree encodes (steady label' children) limit' [] root ⟨clock, [], []⟩ = some s' ∧
      readLines Monitor.read (text s') = readLines Manager.read (text s) := by
  obtain ⟨s, u, hs, hu, hread⟩ := displayTreeNode_ends hS hpids hroot hlimit clock
  have hunit : (fun pid => (label' pid).map fun _ => ()) =
      fun pid => (label pid).map fun _ => () := by
    funext pid
    have := hlabel pid
    cases h : label pid <;> cases h' : label' pid <;> simp_all
  -- over a forest the walk of the other program is the same, with its own limit
  have hu' : visit depths (unnamed (steady label' children)) never limit' 0 root
      ⟨clock, [], []⟩ = some u := by
    obtain ⟨-, v, -, hv, -⟩ := displayTreeNode_ends hS hpids hroot hlimit' clock
    obtain rfl : u = v := by
      have hmax := visit_mono hu (Nat.le_max_left limit limit')
      rw [visit_mono hv (Nat.le_max_right limit limit')] at hmax
      exact (Option.some.inj hmax).symm
    rw [unnamed_steady, hunit, visit_never_eq (leads_unnamed ▸ hparent)
      (leads_unnamed ▸ hacyclic) hnodup (fun _ _ => List.not_mem_nil)]
    exact hv
  obtain ⟨s', hs', hread'⟩ := Monitor.legible.written hS' drawn_monitor hu'
  exact ⟨s, s', hs, hs', hread'.trans hread.symm⟩

theorem leads_family {a b : ℕ} (h : Leads (nameless 'x') family a b) : a = 1 ∧ b ≠ 1 := by
  obtain ⟨-, kids, hkids, hb⟩ := h
  by_cases ha : a = 1
  · rw [family, if_pos ha] at hkids
    obtain rfl := Option.some.inj hkids
    refine ⟨ha, ?_⟩
    rintro rfl
    simp at hb
  · rw [family, if_neg ha] at hkids
    obtain rfl := Option.some.inj hkids
    cases hb

theorem printTree_reads_family :
    ∃ s s', displayTreeNode (fun _ => true) (steady (nameless 'x') family) 4 ([], []) 1
        ⟨0, [], []⟩ = some s ∧
      printTree (fun _ => true) (steady (nameless 'y') family) 5 [] 1 ⟨0, [], []⟩ = some s' ∧
      readLines Monitor.read (text s') = readLines Manager.read (text s) := by
  refine printTree_reads (printable_family (by decide)) (printable_family (by decide))
    (fun pid => ?_) (fun a b k ha hb => ?_) (fun a h => ?_) (fun pid kids h => ?_)
    (within_family _) (by decide) (by decide) (by decide) 0
  · by_cases h : pid = 3 <;> simp [nameless, h]
  · exact (leads_family ha).1.trans (leads_family hb).1.symm
  · obtain ⟨b, hb, -⟩ := TransGen.head'_iff.mp h
    obtain ⟨c, -, hc⟩ := TransGen.tail'_iff.mp h
    exact (leads_family hc).2 (leads_family hb).1
  · unfold family at h
    split at h <;> cases h <;> simp

end Steady

end OSCompas.Psutil
