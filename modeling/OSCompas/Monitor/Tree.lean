import Mathlib.Data.Fintype.EquivFin
import Mathlib.Data.Set.List
import Mathlib.Logic.Function.Basic
import OSCompas.Lib.Awk
import OSCompas.Lib.Forest

/-!
# The process tree

`show_process_tree` of `process_monitor.sh`: awk reads `pid ppid comm` lines into three arrays and
prints, from a target on, whose parent is whose.  Its loop goes over the keys of `child`, and these
are the parents: `child[$2] = $2`.

* `Arrays`, `readLines` — the main rule;
* `printTree` — the recursion, with `i` global and the keys visited in some order;
* `Processes` — a finite forest;
* `Complete` — each proper descendant of the target once, under its parent.

Principal results: `showProcessTree_inner` and `showProcessTree_complete_iff`.
-/

set_option autoImplicit false

namespace OSCompas.Monitor

open Relation OSCompas.Words OSCompas.Awk OSCompas.Forest

/-! ## The awk program -/

/-- `ppid`, `comm` and the keys of `child`, whose values nothing reads. -/
structure Arrays where
  ppid : List Char → Value
  comm : List Char → Value
  child : List (List Char)

/-- The rule for one line. -/
def Arrays.read (a : Arrays) (line : List Char) : Arrays where
  ppid := Function.update a.ppid (field line 1).text (field line 2)
  comm := Function.update a.comm (field line 1).text (field line 3)
  child := a.child.insert (field line 2).text

def readLines (lines : List (List Char)) : Arrays :=
  lines.foldl Arrays.read { ppid := fun _ => .uninit, comm := fun _ => .uninit, child := [] }

/-- What `printf("%s├─ %s (%s)\\n", indent, comm[i], i)` is given. -/
structure Line where
  indent : List Char
  comm : List Char
  pid : List Char
  deriving DecidableEq

/-- The global `i` and the output. -/
structure Run where
  i : List Char
  out : List Line

def guide : List Char := "│  ".toList

/-- In which order `for (i in child)` goes, which no one promises. -/
structure Visit (a : Arrays) where
  order : Value → List (List Char)
  perm : ∀ pid, (order pid).Perm a.child

/-- One turn of the loop. -/
def printChild (a : Arrays) (below : Value → List Char → Run → Option Run) (pid : Value)
    (indent : List Char) (r : Run) (i : List Char) : Option Run :=
  let r := { r with i := i }
  if (a.ppid r.i).eq pid then
    let line : Line := ⟨indent, (a.comm r.i).text, r.i⟩
    below (.str r.i) (indent ++ guide) { r with out := r.out ++ [line] }
  else some r

/-- `print_tree(pid, indent)`, as many calls deep as there is fuel. -/
def printTree (a : Arrays) (v : Visit a) : ℕ → Value → List Char → Run → Option Run
  | 0, _, _, _ => none
  | fuel + 1, pid, indent, r =>
    (v.order pid).foldlM (printChild a (printTree a v fuel) pid indent) r

/-- The lines printed for `show_process_tree pid`, without the heading. -/
def showProcessTree (lines : List (List Char)) (v : Visit (readLines lines)) (fuel : ℕ)
    (pid : List Char) : Option (List Line) :=
  let target := if pid = [] then ['1'] else pid
  (printTree _ v fuel (.ofInput target) [] { i := [], out := [] }).map Run.out

/-! ## Processes -/

structure Process where
  pid : UInt32
  ppid : UInt32
  comm : List Char

/-- `%d` of a process id. -/
def key (p : UInt32) : List Char := Nat.toDigits 10 p.toNat

/-- `pid ppid comm` -/
def Process.line (x : Process) : List Char := key x.pid ++ ' ' :: (key x.ppid ++ ' ' :: x.comm)

/-- One has the other for its parent. -/
def Child (procs : List Process) (p c : UInt32) : Prop := ∃ x ∈ procs, x.ppid = p ∧ x.pid = c

/-- A finite forest. -/
structure Processes where
  list : List Process
  nodup : (list.map Process.pid).Nodup
  acyclic : ∀ p, ¬ TransGen (Child list) p p

def Processes.lines (F : Processes) : List (List Char) := F.list.map Process.line

/-- So many steps deep. -/
def guides (d : ℕ) : List Char := (List.replicate d guide).flatten

/-- The lines are the proper descendants, each once and one step under its parent. -/
def Complete (F : Processes) (target : UInt32) (out : List Line) : Prop :=
  ∃ es, Forest.Complete (Child F.list) target es ∧
    out.map (fun l => (l.indent, l.pid)) = es.map fun e => (guides e.1, key e.2)

/-! ## What is read -/

variable {procs : List Process} {x y : Process} {p k t : UInt32} {d : ℕ}

theorem key_injective : Function.Injective key := fun _ _ h =>
  UInt32.toNat_inj.mp (toDigits_injective h)

theorem key_ne_nil (p : UInt32) : key p ≠ [] := Nat.toDigits_ne_nil

theorem solid_key (p : UInt32) : Solid blank (key p) := solid_toDigits p.toNat

theorem words_line_process (x : Process) :
    words blank x.line = key x.pid :: key x.ppid :: words blank x.comm := by
  rw [Process.line, words_append_cons rfl, words_append_cons rfl, (solid_key x.pid).words,
    (solid_key x.ppid).words]
  rfl

theorem text_field_pid (x : Process) : (field x.line 1).text = key x.pid :=
  text_field (by rw [words_line_process]; rfl)

theorem field_ppid (x : Process) : field x.line 2 = .strnum (key x.ppid) := by
  have hword : (words blank x.line)[1]? = some (key x.ppid) := by rw [words_line_process]; rfl
  rw [field, hword]
  exact Value.ofInput_toDigits _

/-- The arrays after all lines. -/
def tables (procs : List Process) : Arrays := readLines (procs.map Process.line)

theorem tables_concat (procs : List Process) (x : Process) :
    tables (procs ++ [x]) = (tables procs).read x.line := by
  simp [tables, readLines]

@[simp] theorem read_ppid (a : Arrays) (x : Process) : (a.read x.line).ppid =
    Function.update a.ppid (key x.pid) (.strnum (key x.ppid)) := by
  rw [Arrays.read, text_field_pid, field_ppid]

@[simp] theorem read_child (a : Arrays) (x : Process) :
    (a.read x.line).child = a.child.insert (key x.ppid) := by
  rw [Arrays.read, field_ppid]
  rfl

/-- A process that is not listed has no parent noted. -/
theorem ppid_unlisted (h : ∀ x ∈ procs, x.pid ≠ k) : (tables procs).ppid (key k) = .uninit := by
  induction procs using List.reverseRecOn with
  | nil => rfl
  | append_singleton procs x ih =>
    have hne : key k ≠ key x.pid := fun heq => h x (by simp) (key_injective heq).symm
    rw [tables_concat, read_ppid, Function.update_of_ne hne]
    exact ih fun y hy => h y (List.mem_append_left _ hy)

/-- A listed one has its own. -/
theorem ppid_listed (hnodup : (procs.map Process.pid).Nodup) (hx : x ∈ procs) :
    (tables procs).ppid (key x.pid) = .strnum (key x.ppid) := by
  induction procs using List.reverseRecOn with
  | nil => cases hx
  | append_singleton procs y ih =>
    rw [List.map_append, List.nodup_append] at hnodup
    obtain ⟨hnodup, -, hlast⟩ := hnodup
    rw [tables_concat, read_ppid]
    rcases List.mem_append.mp hx with hx | hx
    · have hne : key x.pid ≠ key y.pid := fun heq =>
        hlast _ (List.mem_map_of_mem hx) _ List.mem_cons_self (key_injective heq)
      rw [Function.update_of_ne hne]
      exact ih hnodup hx
    · obtain rfl := List.mem_singleton.mp hx
      exact Function.update_self _ _ _

/-- The keys of `child` are the parents. -/
theorem mem_child {c : List Char} : c ∈ (tables procs).child ↔ ∃ x ∈ procs, key x.ppid = c := by
  induction procs using List.reverseRecOn with
  | nil => simp [tables, readLines]
  | append_singleton procs y ih =>
    rw [tables_concat, read_child, List.mem_insert_iff, ih]
    simp only [List.mem_append, List.mem_singleton, or_and_right, exists_or, exists_eq_left]
    rw [or_comm, eq_comm]

theorem nodup_child (procs : List Process) : (tables procs).child.Nodup := by
  induction procs using List.reverseRecOn with
  | nil => exact List.nodup_nil
  | append_singleton procs y ih =>
    rw [tables_concat, read_child]
    exact ih.insert

/-- Whatever the order, the loop goes over the parents, each once. -/
theorem Visit.keys (v : Visit (tables procs)) (pid : Value) :
    ∃ ks : List UInt32, v.order pid = ks.map key ∧ ks.Nodup ∧
      ∀ k, k ∈ ks ↔ ∃ c, Child procs k c := by
  have hmem : ∀ c, c ∈ v.order pid ↔ ∃ x ∈ procs, key x.ppid = c := fun c => by
    rw [(v.perm pid).mem_iff, mem_child]
  obtain ⟨ks, hks⟩ : ∃ ks : List UInt32, ks.map key = v.order pid := by
    have hrange : v.order pid ∈ Set.range (List.map key) := by
      rw [Set.range_list_map]
      intro c hc
      obtain ⟨x, -, rfl⟩ := (hmem c).mp hc
      exact ⟨x.ppid, rfl⟩
    exact hrange
  refine ⟨ks, hks.symm, ?_, fun k => ?_⟩
  · have hnodup := (v.perm pid).nodup_iff.mpr (nodup_child procs)
    rw [← hks] at hnodup
    exact hnodup.of_map
  · rw [← List.mem_map_of_injective key_injective, hks, hmem]
    constructor
    · rintro ⟨x, hx, heq⟩
      exact ⟨x.pid, x, hx, key_injective heq, rfl⟩
    · rintro ⟨c, x, hx, rfl, -⟩
      exact ⟨x, hx, rfl⟩

/-! ## Who is compared equal -/

theorem number_key (p : UInt32) : (Value.strnum (key p)).number = p.toNat :=
  Value.number_eq_of_text rfl (Nat.lt_trans p.toNat_lt (by decide))

/-- A listed process has one parent. -/
theorem child_pid_iff (hnodup : (procs.map Process.pid).Nodup) (hx : x ∈ procs) :
    Child procs p x.pid ↔ x.ppid = p := by
  refine ⟨?_, fun h => ⟨x, hx, h, rfl⟩⟩
  rintro ⟨y, hy, rfl, hpid⟩
  rw [List.inj_on_of_nodup_map hnodup hy hx hpid]

/-- In a call for a key, the children of that process. -/
theorem eq_str_iff (hnodup : (procs.map Process.pid).Nodup) :
    ((tables procs).ppid (key k)).eq (.str (key p)) = true ↔ Child procs p k := by
  by_cases hlisted : ∃ x ∈ procs, x.pid = k
  · obtain ⟨x, hx, rfl⟩ := hlisted
    rw [ppid_listed hnodup hx, child_pid_iff hnodup hx]
    simp [Value.eq, Value.text, key_injective.eq_iff]
  · have hunlisted : ∀ x ∈ procs, x.pid ≠ k := fun x hx heq => hlisted ⟨x, hx, heq⟩
    rw [ppid_unlisted hunlisted]
    refine ⟨fun h => absurd (of_decide_eq_true h).symm (key_ne_nil p), ?_⟩
    rintro ⟨x, hx, -, rfl⟩
    exact absurd rfl (hunlisted x hx)

/-- In the call for the target, its children, and for target 0 whoever is not listed. -/
theorem eq_strnum_iff (hnodup : (procs.map Process.pid).Nodup) :
    ((tables procs).ppid (key k)).eq (.strnum (key t)) = true ↔
      Child procs t k ∨ t = 0 ∧ ∀ x ∈ procs, x.pid ≠ k := by
  by_cases hlisted : ∃ x ∈ procs, x.pid = k
  · obtain ⟨x, hx, rfl⟩ := hlisted
    have hnumber : (Value.strnum (key x.ppid)).number = (Value.strnum (key t)).number ↔
        x.ppid = t := by
      rw [number_key, number_key, Nat.cast_inj, UInt32.toNat_inj]
    have hself : ¬ ∀ y ∈ procs, y.pid ≠ x.pid := fun h => h x hx rfl
    simp only [ppid_listed hnodup hx, child_pid_iff hnodup hx, Value.eq, decide_eq_true_eq,
      hnumber, hself, and_false, or_false]
  · have hunlisted : ∀ x ∈ procs, x.pid ≠ k := fun x hx heq => hlisted ⟨x, hx, heq⟩
    have hchild : ¬ Child procs t k := fun ⟨x, hx, _, hpid⟩ => hunlisted x hx hpid
    have hzero : (0 : ℚ) = t.toNat ↔ t = 0 := by
      rw [eq_comm, Nat.cast_eq_zero, ← UInt32.toNat_zero, UInt32.toNat_inj]
    simp only [ppid_unlisted hunlisted, Value.eq, decide_eq_true_eq, Value.number_uninit,
      number_key, hzero, hchild, false_or]
    exact ⟨fun h => ⟨h, hunlisted⟩, And.left⟩

/-! ## The recursion -/

variable {a : Arrays} {v : Visit a} {pid : Value} {indent : List Char} {ks : List UInt32}

/-- A call prints its lines and comes back, given fuel enough. -/
def Prints (a : Arrays) (v : Visit a) (pid : Value) (indent : List Char) (out : List Line) : Prop :=
  ∃ fuel₀, ∀ fuel ≥ fuel₀, ∀ r : Run, ∃ i, printTree a v fuel pid indent r = some ⟨i, r.out ++ out⟩

/-- The line of a process at a depth. -/
def entry (a : Arrays) (e : ℕ × UInt32) : Line :=
  ⟨guides e.1, (a.comm (key e.2)).text, key e.2⟩

theorem guides_succ (d : ℕ) : guides (d + 1) = guides d ++ guide := by
  simp [guides, List.replicate_succ']

/-- The keys that a loop prints. -/
def chosen (a : Arrays) (pid : Value) (ks : List UInt32) : List UInt32 :=
  ks.filter fun k => (a.ppid (key k)).eq pid

/-- The loop prints the chosen keys, each with what its own call prints; that `i` is global does no
harm, for every turn sets it anew. -/
theorem loop_prints (pid : Value) (indent : List Char) (below : UInt32 → List Line)
    (h : ∀ k ∈ ks, (a.ppid (key k)).eq pid = true →
      Prints a v (.str (key k)) (indent ++ guide) (below k)) :
    ∃ fuel₀, ∀ fuel ≥ fuel₀, ∀ r : Run, ∃ i,
      (ks.map key).foldlM (printChild a (printTree a v fuel) pid indent) r =
        some ⟨i, r.out ++ (chosen a pid ks).flatMap fun k =>
          ⟨indent, (a.comm (key k)).text, key k⟩ :: below k⟩ := by
  induction ks with
  | nil => exact ⟨0, fun fuel _ r => ⟨r.i, by simp [chosen]⟩⟩
  | cons k ks ih =>
    obtain ⟨f₁, hrest⟩ := ih fun j hj => h j (List.mem_cons_of_mem k hj)
    by_cases hk : (a.ppid (key k)).eq pid = true
    · obtain ⟨f₂, hbelow⟩ := h k List.mem_cons_self hk
      refine ⟨max f₁ f₂, fun fuel hfuel r => ?_⟩
      let line : Line := ⟨indent, (a.comm (key k)).text, key k⟩
      obtain ⟨i, hi⟩ := hbelow fuel (le_of_max_le_right hfuel) ⟨key k, r.out ++ [line]⟩
      obtain ⟨j, hj⟩ := hrest fuel (le_of_max_le_left hfuel) ⟨i, r.out ++ [line] ++ below k⟩
      refine ⟨j, ?_⟩
      have hturn : printChild a (printTree a v fuel) pid indent r (key k) =
          some ⟨i, r.out ++ [line] ++ below k⟩ := by
        rw [printChild, if_pos hk]
        exact hi
      have hchosen : chosen a pid (k :: ks) = k :: chosen a pid ks := List.filter_cons_of_pos hk
      rw [List.map_cons, List.foldlM_cons, hturn, Option.bind_eq_bind, Option.bind_some, hj,
        hchosen, List.flatMap_cons]
      simp [line]
    · refine ⟨f₁, fun fuel hfuel r => ?_⟩
      obtain ⟨j, hj⟩ := hrest fuel hfuel ⟨key k, r.out⟩
      refine ⟨j, ?_⟩
      have hturn : printChild a (printTree a v fuel) pid indent r (key k) =
          some ⟨key k, r.out⟩ := by rw [printChild, if_neg hk]
      have hchosen : chosen a pid (k :: ks) = chosen a pid ks := List.filter_cons_of_neg hk
      rw [List.map_cons, List.foldlM_cons, hturn, Option.bind_eq_bind, Option.bind_some, hj,
        hchosen]

/-- One call. -/
theorem printTree_prints (hks : v.order pid = ks.map key) (below : UInt32 → List (ℕ × UInt32))
    (h : ∀ k ∈ ks, (a.ppid (key k)).eq pid = true →
      Prints a v (.str (key k)) (guides (d + 1)) ((below k).map (entry a))) :
    Prints a v pid (guides d) (((chosen a pid ks).flatMap fun k =>
      (d, k) :: below k).map (entry a)) := by
  simp only [guides_succ] at h
  obtain ⟨f, hf⟩ := loop_prints pid (guides d) (fun k => (below k).map (entry a)) h
  refine ⟨f + 1, fun fuel hfuel r => ?_⟩
  obtain ⟨fuel, rfl⟩ : ∃ n, fuel = n + 1 := ⟨fuel - 1, by omega⟩
  obtain ⟨i, hi⟩ := hf fuel (by omega) r
  refine ⟨i, ?_⟩
  rw [printTree, hks, hi, List.map_flatMap]
  rfl

/-! ## The tree below a process -/

/-- A child that has children of its own. -/
def Inner (procs : List Process) (p c : UInt32) : Prop :=
  Child procs p c ∧ ∃ g, Child procs c g

variable (F : Processes)

theorem child_unique : ∀ p q c, Child F.list p c → Child F.list q c → p = q := by
  rintro p q - ⟨x, hx, rfl, rfl⟩ hq
  exact (child_pid_iff F.nodup hx).mp hq

theorem inner_acyclic : ∀ p, ¬ TransGen (Inner F.list) p p := fun p h =>
  F.acyclic p (TransGen.mono (fun _ _ => And.left) _ _ h)

theorem finite_pid : Finite UInt32 :=
  Finite.of_injective UInt32.toFin fun _ _ h => UInt32.toFin_inj.mp h

/-- **The call for a process prints the walk over its inner descendants.** -/
theorem listing_of_key (v : Visit (tables F.list)) (p : UInt32) : ∀ d, ∃ es,
    Listing (Inner F.list) p d es ∧
      Prints _ v (.str (key p)) (guides d) (es.map (entry (tables F.list))) := by
  have := finite_pid
  have hwf := Forest.wellFounded (inner_acyclic F)
  induction p using hwf.induction with
  | h p ih =>
    intro d
    obtain ⟨ks, hks, hnodup, hmem⟩ := v.keys (.str (key p))
    have hbelow : ∀ k, ∃ es, Inner F.list p k → Listing (Inner F.list) k (d + 1) es ∧
        Prints _ v (.str (key k)) (guides (d + 1)) (es.map (entry (tables F.list))) := fun k => by
      by_cases hk : Inner F.list p k
      · obtain ⟨es, hes⟩ := ih k hk (d + 1)
        exact ⟨es, fun _ => hes⟩
      · exact ⟨[], fun h => absurd h hk⟩
    choose below hbelow using hbelow
    have hinner : ∀ k, k ∈ ks ∧ ((tables F.list).ppid (key k)).eq (.str (key p)) = true ↔
        Inner F.list p k := fun k => by rw [hmem, eq_str_iff F.nodup, Inner, and_comm]
    refine ⟨_, Listing.walk _ below (hnodup.filter _) (fun k => ?_) (fun k hk => ?_),
      printTree_prints hks below fun k hk heq => (hbelow k ((hinner k).mp ⟨hk, heq⟩)).2⟩
    · rw [List.mem_filter]
      exact hinner k
    · exact (hbelow k ((hinner k).mp (List.mem_filter.mp hk))).1

/-- The call for the target prints the same below each of the keys it chooses. -/
theorem listing_of_target (v : Visit (tables F.list)) (t : UInt32) :
    ∃ (kids : List UInt32) (below : UInt32 → List (ℕ × UInt32)),
      kids.Nodup ∧
      (∀ k, k ∈ kids ↔ (∃ c, Child F.list k c) ∧
        (Child F.list t k ∨ t = 0 ∧ ∀ x ∈ F.list, x.pid ≠ k)) ∧
      (∀ k, Listing (Inner F.list) k 1 (below k)) ∧
      Prints _ v (.strnum (key t)) []
        ((kids.flatMap fun k => (0, k) :: below k).map (entry (tables F.list))) := by
  obtain ⟨ks, hks, hnodup, hmem⟩ := v.keys (.strnum (key t))
  choose below hlisting hprints using fun k => listing_of_key F v k 1
  refine ⟨chosen _ (.strnum (key t)) ks, below, hnodup.filter _, fun k => ?_, hlisting,
    printTree_prints hks below fun k _ _ => hprints k⟩
  rw [chosen, List.mem_filter, hmem, eq_strnum_iff F.nodup]

/-- Enough fuel prints it all. -/
def Terminates (v : Visit (readLines F.lines)) (t : UInt32) (out : List Line) : Prop :=
  ∃ fuel₀, ∀ fuel ≥ fuel₀, showProcessTree F.lines v fuel (key t) = some out

theorem terminates_of_prints {v : Visit (tables F.list)} {out : List Line}
    (h : Prints _ v (.strnum (key t)) [] out) : Terminates F v t out := by
  obtain ⟨fuel₀, h⟩ := h
  refine ⟨fuel₀, fun fuel hfuel => ?_⟩
  obtain ⟨i, hi⟩ := h fuel hfuel { i := [], out := [] }
  have htarget : Value.ofInput (if key t = [] then ['1'] else key t) = .strnum (key t) := by
    rw [if_neg (key_ne_nil t), key, Value.ofInput_toDigits]
  unfold showProcessTree
  dsimp only
  rw [htarget]
  exact congrArg (Option.map Run.out) hi

/-- **For a target other than 0 the inner processes among its descendants are printed, each once and
under its parent; those without children are not.** -/
theorem showProcessTree_inner (v : Visit (readLines F.lines)) (ht : t ≠ 0) :
    ∃ es, Forest.Complete (Inner F.list) t es ∧
      Terminates F v t (es.map (entry (tables F.list))) := by
  obtain ⟨kids, below, hnodup, hmem, hlisting, hprints⟩ := listing_of_target F v t
  have hwalk : Listing (Inner F.list) t 0 (kids.flatMap fun k => (0, k) :: below k) := by
    refine .walk kids below hnodup (fun k => ?_) fun k _ => hlisting k
    rw [hmem, Inner, and_comm, or_iff_left fun h => ht h.1]
  exact ⟨_, hwalk.complete (fun p q c hp hq => child_unique F p q c hp.1 hq.1) (inner_acyclic F),
    terminates_of_prints F hprints⟩

/-! ## Completeness -/

/-- Going up from a listed process ends at a parent that is not listed. -/
theorem exists_unlisted (hx : x ∈ F.list) :
    ∃ q, (∃ c, Child F.list q c) ∧ ∀ y ∈ F.list, y.pid ≠ q := by
  have := finite_pid
  have hwf : WellFounded (Function.swap (Function.swap (Child F.list))) :=
    Forest.wellFounded fun p h => F.acyclic p (transGen_swap.mp h)
  have hup : Function.swap (Child F.list) x.pid x.ppid := ⟨x, hx, rfl, rfl⟩
  obtain ⟨q, hq, hroot⟩ := exists_leaf hwf hup
  obtain ⟨c, -, hc⟩ := TransGen.tail'_iff.mp hq
  exact ⟨q, ⟨c, hc⟩, fun y hy hpid => hroot y.ppid ⟨y, hy, rfl, hpid⟩⟩

/-- What a complete output shows are the descendants. -/
theorem Complete.mem_iff {es : List (ℕ × UInt32)}
    (h : Complete F t (es.map (entry (tables F.list)))) :
    k ∈ es.map Prod.snd ↔ TransGen (Child F.list) t k := by
  obtain ⟨es', hes', heq⟩ := h
  have hkeys := congrArg (List.map Prod.snd) heq
  simp only [List.map_map] at hkeys
  have hpids : (es.map Prod.snd).map key = (es'.map Prod.snd).map key := by
    rw [List.map_map, List.map_map]
    exact hkeys
  rw [List.map_injective_iff.mpr key_injective hpids, hes'.mem]

/-- Who is no one's parent has no descendants. -/
theorem not_transGen (h : ∀ x ∈ procs, x.ppid ≠ t) : ¬ TransGen (Child procs) t k := by
  intro hk
  obtain ⟨c, ⟨x, hx, hppid, -⟩, -⟩ := TransGen.head'_iff.mp hk
  exact h x hx hppid

theorem complete_nil (h : ∀ x ∈ F.list, x.ppid ≠ t) : Complete F t [] :=
  ⟨[], ⟨List.nodup_nil, fun _ => ⟨fun hk => absurd hk List.not_mem_nil,
    fun hk => absurd hk (not_transGen h)⟩, trivial⟩, rfl⟩

/-- A leaf is a descendant that is never printed. -/
theorem complete_iff {es : List (ℕ × UInt32)}
    (hes : Forest.Complete (Inner F.list) t es) :
    Complete F t (es.map (entry (tables F.list))) ↔ ∀ x ∈ F.list, x.ppid ≠ t := by
  constructor
  · intro hcomplete x hx hppid
    have := finite_pid
    obtain ⟨l, hl, hleaf⟩ := exists_leaf (Forest.wellFounded F.acyclic) ⟨x, hx, hppid, rfl⟩
    have hprinted := (hes.mem l).mp ((hcomplete.mem_iff F).mpr hl)
    obtain ⟨m, -, -, g, hg⟩ := TransGen.tail'_iff.mp hprinted
    exact hleaf g hg
  · intro hnone
    have hempty : es = [] := by
      refine List.eq_nil_iff_forall_not_mem.mpr fun e he => ?_
      have hinner := (hes.mem e.2).mp (List.mem_map_of_mem he)
      exact not_transGen hnone (TransGen.mono (fun _ _ => And.left) _ _ hinner)
    rw [hempty]
    exact complete_nil F hnone

/-- **The tree is printed to the end, and it is complete exactly when there is nothing to print: no
process has the target for its parent, and for target 0 there is no process.** -/
theorem showProcessTree_complete_iff (F : Processes) (v : Visit (readLines F.lines)) (t : UInt32) :
    ∃ out, Terminates F v t out ∧
      (Complete F t out ↔ (∀ x ∈ F.list, x.ppid ≠ t) ∧ (t = 0 → F.list = [])) := by
  by_cases ht : t = 0
  · subst ht
    obtain ⟨kids, below, -, hmem, -, hprints⟩ := listing_of_target F v 0
    refine ⟨_, terminates_of_prints F hprints, fun hcomplete => ?_, fun ⟨hnone, hempty⟩ => ?_⟩
    · have hempty : F.list = [] := by
        by_contra hne
        obtain ⟨x, hx⟩ := List.exists_mem_of_ne_nil _ hne
        obtain ⟨q, hq, hunlisted⟩ := exists_unlisted F hx
        have hkid : q ∈ kids := (hmem q).mpr ⟨hq, .inr ⟨rfl, hunlisted⟩⟩
        have hshown : q ∈ (kids.flatMap fun k => (0, k) :: below k).map Prod.snd :=
          List.mem_map.mpr ⟨(0, q), List.mem_flatMap.mpr ⟨q, hkid, List.mem_cons_self⟩, rfl⟩
        obtain ⟨p, -, y, hy, -, hpid⟩ := TransGen.tail'_iff.mp ((hcomplete.mem_iff F).mp hshown)
        exact hunlisted y hy hpid
      refine ⟨fun x hx => ?_, fun _ => hempty⟩
      rw [hempty] at hx
      cases hx
    · have hkids : kids = [] := List.eq_nil_iff_forall_not_mem.mpr fun k hk => by
        obtain ⟨⟨c, x, hx, -⟩, -⟩ := (hmem k).mp hk
        rw [hempty rfl] at hx
        cases hx
      rw [hkids]
      exact complete_nil F hnone
  · obtain ⟨es, hes, hterminates⟩ := showProcessTree_inner F v ht
    refine ⟨_, hterminates, (complete_iff F hes).trans ?_⟩
    rw [and_iff_left fun h => absurd h ht]

/-! ## A session -/

/-- Parents older than their children make no cycle. -/
theorem acyclic_of_lt (h : ∀ x ∈ procs, x.ppid < x.pid) (p : UInt32) :
    ¬ TransGen (Child procs) p p := by
  have hlt : ∀ q, TransGen (Child procs) p q → p < q := by
    intro q hq
    induction hq with
    | single hc =>
      obtain ⟨x, hx, rfl, rfl⟩ := hc
      exact h x hx
    | tail _ hc ih =>
      obtain ⟨x, hx, rfl, rfl⟩ := hc
      exact UInt32.lt_trans ih (h x hx)
  exact fun hp => UInt32.lt_irrefl p (hlt p hp)

/-- An editor in a shell under the first process. -/
def session : Processes where
  list := [⟨1, 0, "init".toList⟩, ⟨100, 1, "bash".toList⟩, ⟨200, 100, "vim".toList⟩]
  nodup := by decide
  acyclic := acyclic_of_lt (by decide)

/-- The keys as they were read. -/
def Visit.asRead (a : Arrays) : Visit a := ⟨fun _ => a.child, fun _ => .refl _⟩

theorem Terminates.unique {v : Visit (readLines F.lines)} {out out' : List Line}
    (h : Terminates F v t out) (h' : Terminates F v t out') : out = out' := by
  obtain ⟨f, h⟩ := h
  obtain ⟨f', h'⟩ := h'
  have heq := (h (max f f') (le_max_left f f')).symm.trans (h' (max f f') (le_max_right f f'))
  exact Option.some.inj heq

/-- The shell is printed and the editor is not, whatever the order. -/
theorem session_incomplete :
    showProcessTree session.lines (.asRead _) 3 (key 1) =
      some [⟨[], "bash".toList, "100".toList⟩] ∧
    ∀ v, ¬ ∃ out, Terminates session v 1 out ∧ Complete session 1 out := by
  refine ⟨by decide +kernel, fun v => ?_⟩
  rintro ⟨out, hout, hcomplete⟩
  obtain ⟨es, hes, hprinted⟩ := showProcessTree_inner session v (t := 1) (by decide)
  obtain rfl := hout.unique session hprinted
  have hnone := (complete_iff session hes).mp hcomplete
  exact hnone ⟨100, 1, "bash".toList⟩ (List.mem_cons_of_mem _ List.mem_cons_self) rfl

end OSCompas.Monitor
