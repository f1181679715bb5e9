import Mathlib
import OSCompas.Lib.Forest

/-!
# Walks over what is read on the way

A depth-first walk over nodes whose labels and children are read when the walk gets to them, so that
no two readings have to agree.  A node that cannot be read has no line, and one whose children
cannot be read has nothing below it.  Nothing here names a program.

* `Source` — what a reading finds, `State` — how far a walk is, `Style` — how it writes;
* `visit` — the walk, which leaves out what `skip` says; `each` — its loop over the children;
* `once` — leave out what has been begun, `never` — leave out nothing;
* `depths` — the lines as nodes with their depths.

Principal results: `visit_forall_lines`, `visit_map` (from one style to another), `visit_lines`,
`visit_ends`, `visit_nested`, `mem_begun_iff` and `visit_never_eq` (over a forest nothing needs to
be left out).
-/

set_option autoImplicit false

namespace OSCompas.Walk

open Relation Forest

variable {ι α α' γ γ' β β' σ τ : Type*}

/-- The label and the children of a node, by the number of the reading. -/
structure Source (ι α : Type*) where
  label : ℕ → ι → Option α
  children : ℕ → ι → Option (List ι)

/-- The readings so far, the nodes begun so far, the last one first, and the lines. -/
structure State (ι β : Type*) where
  clock : ℕ
  begun : List ι
  lines : List β

/-- What a line is, and where the one of a child stands: last or not. -/
structure Style (ι α γ β : Type*) where
  below : γ → Bool → γ
  line : γ → ι → α → β

namespace State

/-- The label of `n` has been read. -/
def start (s : State ι β) (n : ι) : State ι β := ⟨s.clock + 1, n :: s.begun, s.lines⟩

/-- The line has been written and the children have been read. -/
def write (s : State ι β) (l : β) : State ι β := ⟨s.clock + 1, s.begun, s.lines ++ [l]⟩

def map (g : β → β') (s : State ι β) : State ι β' := ⟨s.clock, s.begun, s.lines.map g⟩

end State

/-- The loop over the children. -/
def each (f : γ → ι → σ → Option σ) (below : Bool → γ) : List ι → σ → Option σ
  | [], s => some s
  | k :: ks, s => (f (below ks.isEmpty) k s).bind (each f below ks)

/-- The walk from a node. -/
def visit (T : Style ι α γ β) (S : Source ι α) (skip : List ι → ι → Bool) :
    ℕ → γ → ι → State ι β → Option (State ι β)
  | 0, _, _, _ => none
  | fuel + 1, c, n, s =>
    if skip s.begun n then some s
    else
      match S.label s.clock n with
      | none => some (s.start n)
      | some a =>
        let t := (s.start n).write (T.line c n a)
        match S.children (s.clock + 1) n with
        | none => some t
        | some kids => each (visit T S skip fuel) (T.below c) kids t

def once [DecidableEq ι] (begun : List ι) (n : ι) : Bool := decide (n ∈ begun)

def never (_ : List ι) (_ : ι) : Bool := false

variable {T : Style ι α γ β} {S : Source ι α} {skip : List ι → ι → Bool} {fuel d : ℕ} {c : γ}
  {n k r : ι} {kids : List ι} {s s' t : State ι β}

/-! ## One step, and invariants -/

theorem visit_skip (h : skip s.begun n = true) : visit T S skip (fuel + 1) c n s = some s := by
  simp [visit, h]

theorem visit_unread (h : skip s.begun n = false) (hl : S.label s.clock n = none) :
    visit T S skip (fuel + 1) c n s = some (s.start n) := by
  simp [visit, h, hl]

theorem visit_alone {a : α} (h : skip s.begun n = false) (hl : S.label s.clock n = some a)
    (hc : S.children (s.clock + 1) n = none) :
    visit T S skip (fuel + 1) c n s = some ((s.start n).write (T.line c n a)) := by
  simp [visit, h, hl, hc]

theorem visit_each {a : α} (h : skip s.begun n = false) (hl : S.label s.clock n = some a)
    (hc : S.children (s.clock + 1) n = some kids) : visit T S skip (fuel + 1) c n s =
      each (visit T S skip fuel) (T.below c) kids ((s.start n).write (T.line c n a)) := by
  simp [visit, h, hl, hc]

/-- **What holds of every step holds of every walk**: `P` of a walk from a node, `Q` of the loop
over its children. -/
theorem visit_rule {P : γ → ι → State ι β → State ι β → Prop}
    {Q : γ → List ι → State ι β → State ι β → Prop}
    (skipped : ∀ c n s, skip s.begun n = true → P c n s s)
    (unread : ∀ c n s, skip s.begun n = false → S.label s.clock n = none → P c n s (s.start n))
    (alone : ∀ c n s a, skip s.begun n = false → S.label s.clock n = some a →
      S.children (s.clock + 1) n = none → P c n s ((s.start n).write (T.line c n a)))
    (walked : ∀ c n s a kids s', skip s.begun n = false → S.label s.clock n = some a →
      S.children (s.clock + 1) n = some kids →
      Q c kids ((s.start n).write (T.line c n a)) s' → P c n s s')
    (nil : ∀ c s, Q c [] s s)
    (cons : ∀ c k ks s t s', P (T.below c ks.isEmpty) k s t → Q c ks t s' → Q c (k :: ks) s s')
    (h : visit T S skip fuel c n s = some s') : P c n s s' := by
  induction fuel generalizing c n s s' with
  | zero => cases h
  | succ fuel ih =>
    have hloop : ∀ kids s s', each (visit T S skip fuel) (T.below c) kids s = some s' →
        Q c kids s s' := by
      intro kids
      induction kids with
      | nil =>
        rintro s _ ⟨⟩
        exact nil c s
      | cons k ks ihks =>
        intro s s' h
        obtain ⟨t, ht, h⟩ := Option.bind_eq_some_iff.mp h
        exact cons c k ks s t s' (ih ht) (ihks t s' h)
    cases hskip : skip s.begun n with
    | true =>
      rw [visit_skip hskip] at h
      cases h
      exact skipped c n s hskip
    | false =>
      cases hl : S.label s.clock n with
      | none =>
        rw [visit_unread hskip hl] at h
        cases h
        exact unread c n s hskip hl
      | some a =>
        cases hc : S.children (s.clock + 1) n with
        | none =>
          rw [visit_alone hskip hl hc] at h
          cases h
          exact alone c n s a hskip hl hc
        | some kids =>
          rw [visit_each hskip hl hc] at h
          exact walked c n s a kids s' hskip hl hc (hloop kids _ s' h)

/-- **What holds of the line of every node that is read holds of every line**, with `R` of the
places. -/
theorem visit_forall_lines {R : γ → Prop} {L : β → Prop}
    (hbelow : ∀ c last, R c → R (T.below c last))
    (hline : ∀ t c n a, R c → S.label t n = some a → L (T.line c n a))
    (h : visit T S skip fuel c n s = some s') (hc : R c) (hs : ∀ l ∈ s.lines, L l) :
    ∀ l ∈ s'.lines, L l := by
  have hwrite : ∀ c n (s : State ι β) a, S.label s.clock n = some a → R c →
      (∀ l ∈ s.lines, L l) → ∀ l ∈ ((s.start n).write (T.line c n a)).lines, L l := by
    intro c n s a hl hc hs l hmem
    rcases List.mem_append.mp hmem with hmem | hmem
    · exact hs l hmem
    · rw [List.mem_singleton.mp hmem]
      exact hline s.clock c n a hc hl
  refine visit_rule (P := fun c _ s s' => R c → (∀ l ∈ s.lines, L l) → ∀ l ∈ s'.lines, L l)
    (Q := fun c _ s s' => R c → (∀ l ∈ s.lines, L l) → ∀ l ∈ s'.lines, L l)
    ?_ ?_ ?_ ?_ ?_ ?_ h hc hs
  · exact fun _ _ _ _ _ hs => hs
  · exact fun _ _ _ _ _ _ hs => hs
  · exact fun c n s a _ hl _ hc hs => hwrite c n s a hl hc hs
  · exact fun c n s a _ _ _ hl _ hloop hc hs => hloop hc (hwrite c n s a hl hc hs)
  · exact fun _ _ _ hs => hs
  · exact fun c k ks _ _ _ hvisit hloop hc hs => hloop hc (hvisit (hbelow c _ hc) hs)

theorem each_mono {f f' : γ → ι → σ → Option σ} {below : Bool → γ}
    (h : ∀ c k s t, f c k s = some t → f' c k s = some t) {kids : List ι} {s t : σ}
    (ht : each f below kids s = some t) : each f' below kids s = some t := by
  induction kids generalizing s with
  | nil => exact ht
  | cons k ks ih =>
    obtain ⟨u, hu, ht⟩ := Option.bind_eq_some_iff.mp ht
    rw [each, h _ _ _ _ hu]
    exact ih ht

/-- A walk that ends is the same with more fuel. -/
theorem visit_mono {fuel' : ℕ} (h : visit T S skip fuel c n s = some s') (hle : fuel ≤ fuel') :
    visit T S skip fuel' c n s = some s' := by
  induction fuel generalizing fuel' c n s s' with
  | zero => cases h
  | succ fuel ih =>
    obtain ⟨fuel', rfl⟩ : ∃ m, fuel' = m + 1 := ⟨fuel' - 1, by omega⟩
    have hle := Nat.le_of_succ_le_succ hle
    cases hskip : skip s.begun n with
    | true =>
      rw [visit_skip hskip] at h
      rw [visit_skip hskip, h]
    | false =>
      cases hl : S.label s.clock n with
      | none =>
        rw [visit_unread hskip hl] at h
        rw [visit_unread hskip hl, h]
      | some a =>
        cases hc : S.children (s.clock + 1) n with
        | none =>
          rw [visit_alone hskip hl hc] at h
          rw [visit_alone hskip hl hc, h]
        | some kids =>
          rw [visit_each hskip hl hc] at h
          rw [visit_each hskip hl hc]
          exact each_mono (fun _ _ _ _ hu => ih hu hle) h

/-! ## Styles -/

/-- The number of steps down to a node. -/
def depths : Style ι α ℕ (ℕ × ι) := ⟨fun d _ => d + 1, fun d n _ => (d, n)⟩

theorem each_map {f : γ → ι → σ → Option σ} {f' : γ' → ι → τ → Option τ} {below : Bool → γ}
    {below' : Bool → γ'} {R : γ → γ' → Prop} (g : σ → τ) (hbelow : ∀ b, R (below b) (below' b))
    (h : ∀ c c' k s, R c c' → f' c' k (g s) = (f c k s).map g) (kids : List ι) (s : σ) :
    each f' below' kids (g s) = (each f below kids s).map g := by
  induction kids generalizing s with
  | nil => rfl
  | cons k ks ih =>
    simp only [each, h _ _ k s (hbelow ks.isEmpty)]
    cases f (below ks.isEmpty) k s with
    | none => rfl
    | some t => exact ih t

/-- **A reader of the lines sees the walk in the style that it reads them in**, with `R` between the
places of the two styles. -/
theorem visit_map {T' : Style ι α' γ' β'} {S' : Source ι α'} {R : γ → γ' → Prop} (q : α → α')
    (g : β → β') (hlabel : ∀ t n, S'.label t n = (S.label t n).map q)
    (hchildren : S'.children = S.children)
    (hbelow : ∀ c c' b, R c c' → R (T.below c b) (T'.below c' b))
    (hline : ∀ c c' n a, R c c' → T'.line c' n (q a) = g (T.line c n a)) (fuel : ℕ) {c : γ}
    {c' : γ'} (hc : R c c') (n : ι) (s : State ι β) :
    visit T' S' skip fuel c' n (s.map g) = (visit T S skip fuel c n s).map (State.map g) := by
  induction fuel generalizing c c' n s with
  | zero => rfl
  | succ fuel ih =>
    cases hskip : skip s.begun n with
    | true => rw [visit_skip hskip, visit_skip (s := s.map g) hskip, Option.map_some]
    | false =>
      have hl' := hlabel s.clock n
      cases hl : S.label s.clock n with
      | none =>
        rw [hl, Option.map_none] at hl'
        rw [visit_unread hskip hl, visit_unread (s := s.map g) hskip hl']
        rfl
      | some a =>
        rw [hl, Option.map_some] at hl'
        have hwrite : ((s.map g).start n).write (T'.line c' n (q a)) =
            ((s.start n).write (T.line c n a)).map g := by
          simp [State.map, State.start, State.write, hline c c' n a hc]
        have hk' := congrFun (congrFun hchildren (s.clock + 1)) n
        cases hk : S.children (s.clock + 1) n with
        | none =>
          rw [hk] at hk'
          rw [visit_alone hskip hl hk, visit_alone (s := s.map g) hskip hl' hk', hwrite]
          rfl
        | some kids =>
          rw [hk] at hk'
          rw [visit_each hskip hl hk, visit_each (s := s.map g) hskip hl' hk', hwrite]
          exact each_map _ (hbelow c c' · hc) (fun _ _ k s h => ih h k s) kids _

/-! ## What has been begun -/

/-- Nothing begun is forgotten. -/
theorem begun_subset (h : visit T S skip fuel c n s = some s') : s.begun ⊆ s'.begun := by
  refine visit_rule (P := fun _ _ s s' => s.begun ⊆ s'.begun)
    (Q := fun _ _ s s' => s.begun ⊆ s'.begun) ?_ ?_ ?_ ?_ ?_ ?_ h
  · exact fun _ _ _ _ => List.Subset.refl _
  · exact fun _ _ s _ _ => List.subset_cons_self _ _
  · exact fun _ _ s _ _ _ _ => List.subset_cons_self _ _
  · exact fun _ n s _ _ _ _ _ _ hloop => List.Subset.trans (List.subset_cons_self n s.begun) hloop
  · exact fun _ _ => List.Subset.refl _
  · exact fun _ _ _ _ _ _ hvisit hloop => List.Subset.trans hvisit hloop

/-- The nodes that have a line are nodes begun, each for one line. -/
def Lines (s : State ι (ℕ × ι)) : Prop :=
  (s.lines.map Prod.snd).reverse.Sublist s.begun ∧ s.begun.Nodup

theorem lines_start {s : State ι (ℕ × ι)} (h : Lines s) (hn : n ∉ s.begun) : Lines (s.start n) :=
  ⟨h.1.cons n, List.nodup_cons.mpr ⟨hn, h.2⟩⟩

theorem lines_write {s : State ι (ℕ × ι)} (h : Lines s) (hn : n ∉ s.begun) (d : ℕ) :
    Lines ((s.start n).write (d, n)) := by
  refine ⟨?_, List.nodup_cons.mpr ⟨hn, h.2⟩⟩
  simpa [State.write, State.start] using h.1

section Once

variable [DecidableEq ι]

@[simp] theorem once_eq_true {begun : List ι} : once begun n = true ↔ n ∈ begun :=
  decide_eq_true_iff

@[simp] theorem once_eq_false {begun : List ι} : once begun n = false ↔ n ∉ begun :=
  decide_eq_false_iff_not

/-- **A walk that leaves out what it has begun writes no node twice**, whatever it reads. -/
theorem visit_lines {s s' : State ι (ℕ × ι)} (h : visit depths S once fuel d n s = some s')
    (hs : Lines s) : Lines s' := by
  refine visit_rule (P := fun _ _ s s' => Lines s → Lines s')
    (Q := fun _ _ s s' => Lines s → Lines s') ?_ ?_ ?_ ?_ ?_ ?_ h hs
  · exact fun _ _ _ _ hs => hs
  · exact fun _ _ _ hskip _ hs => lines_start hs (once_eq_false.mp hskip)
  · exact fun d _ _ _ hskip _ _ hs => lines_write hs (once_eq_false.mp hskip) d
  · exact fun d _ _ _ _ _ hskip _ _ hloop hs =>
      hloop (lines_write hs (once_eq_false.mp hskip) d)
  · exact fun _ _ hs => hs
  · exact fun _ _ _ _ _ _ hvisit hloop hs => hloop (hvisit hs)

/-! ## The walk ends -/

/-- How many nodes have not been begun. -/
def room (all : Finset ι) (begun : List ι) : ℕ := (all.filter (· ∉ begun)).card

theorem room_le {all : Finset ι} {b b' : List ι} (h : b ⊆ b') : room all b' ≤ room all b :=
  Finset.card_le_card (Finset.monotone_filter_right all fun _ _ hn hb => hn (h hb))

theorem room_cons {all : Finset ι} {b : List ι} (hn : n ∈ all) (hb : n ∉ b) :
    room all (n :: b) < room all b := by
  refine Finset.card_lt_card (Finset.ssubset_iff_of_subset ?_ |>.mpr ⟨n, ?_, ?_⟩)
  · exact Finset.monotone_filter_right all fun _ _ hm hb => hm (List.mem_cons_of_mem n hb)
  · exact Finset.mem_filter.mpr ⟨hn, hb⟩
  · simp

/-- **A walk that leaves out what it has begun ends**, if it can only read finitely many nodes. -/
theorem visit_ends {all : Finset ι} (hall : ∀ t n kids, S.children t n = some kids →
    ∀ k ∈ kids, k ∈ all) (hn : n ∈ all) (hfuel : room all s.begun < fuel) :
    ∃ s', visit T S once fuel c n s = some s' := by
  induction fuel generalizing c n s with
  | zero => omega
  | succ fuel ih =>
    cases hskip : once s.begun n with
    | true => exact ⟨s, visit_skip hskip⟩
    | false =>
      cases hl : S.label s.clock n with
      | none => exact ⟨_, visit_unread hskip hl⟩
      | some a =>
        cases hc : S.children (s.clock + 1) n with
        | none => exact ⟨_, visit_alone hskip hl hc⟩
        | some kids =>
          rw [visit_each hskip hl hc]
          have hkids := hall _ _ _ hc
          have hroom := room_cons hn (once_eq_false.mp hskip)
          generalize hs : (s.start n).write (T.line c n a) = u
          have hu : room all u.begun < fuel := by
            subst hs
            exact Nat.lt_of_lt_of_le hroom (Nat.lt_succ_iff.mp hfuel)
          clear hs hc
          induction kids generalizing u with
          | nil => exact ⟨u, rfl⟩
          | cons k ks ihks =>
            obtain ⟨t, ht⟩ := ih (c := T.below c ks.isEmpty) (hkids k List.mem_cons_self) hu
            obtain ⟨s', hs'⟩ := ihks (fun j hj => hkids j (List.mem_cons_of_mem k hj)) t
              ((room_le (begun_subset ht)).trans_lt hu)
            exact ⟨s', by rw [each, ht]; exact hs'⟩

end Once

/-! ## Lines stand under their parents' -/

/-- `k` has been read among the children of `n`. -/
def Child (S : Source ι α) (n k : ι) : Prop := ∃ t kids, S.children t n = some kids ∧ k ∈ kids

/-- The lines of a node and of what is below it: no line, or its own and then, deeper, lines that
each stand under the parent's. -/
def Block (S : Source ι α) (seen : List (ℕ × ι)) (d : ℕ) (n : ι) (es : List (ℕ × ι)) : Prop :=
  es = [] ∨ ∃ es', es = (d, n) :: es' ∧ Nested (Child S) n ((d, n) :: seen) es' ∧ ∀ e ∈ es', d < e.1

/-- Under a line of depth `d` the root does not matter. -/
theorem nested_root {child : ι → ι → Prop} {r' : ι} {seen es : List (ℕ × ι)}
    (hd : ∃ e ∈ seen, e.1 ≤ d) (hes : ∀ e ∈ es, d < e.1) (h : Nested child r seen es) :
    Nested child r' seen es := by
  induction es generalizing seen with
  | nil => trivial
  | cons e es ih =>
    obtain ⟨hunder, hrest⟩ := h
    refine ⟨?_, ih ?_ (fun e he => hes e (List.mem_cons_of_mem _ he)) hrest⟩
    · obtain ⟨e', he', hle⟩ := hd
      cases habove : above seen e.1 with
      | none =>
        have := List.find?_eq_none.mp habove e' he'
        have := hes e List.mem_cons_self
        simp only [decide_eq_true_eq] at *
        omega
      | some u =>
        rw [habove] at hunder
        exact hunder
    · obtain ⟨e', he', hle⟩ := hd
      exact ⟨e', List.mem_cons_of_mem _ he', hle⟩

/-- **Each line of a walk stands under its parent's line**, one step deeper, where the parent is the
node among whose children it was read. -/
theorem visit_nested {s s' : State ι (ℕ × ι)} (h : visit depths S skip fuel d n s = some s') :
    ∃ es, s'.lines = s.lines ++ es ∧ Block S s.lines.reverse d n es := by
  refine visit_rule
    (P := fun d n s s' => ∃ es, s'.lines = s.lines ++ es ∧ Block S s.lines.reverse d n es)
    (Q := fun d kids s s' => ∀ n, (∀ k ∈ kids, Child S n k) →
      above s.lines.reverse (d + 1) = some (d, n) → ∃ es, s'.lines = s.lines ++ es ∧
        Nested (Child S) n s.lines.reverse es ∧ ∀ e ∈ es, d < e.1) ?_ ?_ ?_ ?_ ?_ ?_ h
  · exact fun _ _ s _ => ⟨[], (List.append_nil _).symm, .inl rfl⟩
  · exact fun _ _ s _ _ => ⟨[], (List.append_nil _).symm, .inl rfl⟩
  · exact fun d n s _ _ _ _ => ⟨[(d, n)], rfl, .inr ⟨[], rfl, trivial, by simp⟩⟩
  · intro d n s a kids s' _ _ hc hloop
    have hlines : ((s.start n).write ((depths : Style ι α ℕ (ℕ × ι)).line d n a)).lines.reverse =
        (d, n) :: s.lines.reverse := by
      simp [State.write, State.start, depths]
    rw [hlines] at hloop
    obtain ⟨es, hes, hnested, hdeep⟩ := hloop n (fun k hk => ⟨_, _, hc, hk⟩)
      (List.find?_cons_of_pos (by simp))
    exact ⟨(d, n) :: es, by rw [hes]; simp [State.write, State.start, depths],
      .inr ⟨es, rfl, hnested, hdeep⟩⟩
  · exact fun _ s _ _ _ => ⟨[], (List.append_nil _).symm, trivial, by simp⟩
  · intro d k ks s t s' hvisit hloop n hkids habove
    obtain ⟨es, hes, hblock⟩ := hvisit
    have hdeep : ∀ e ∈ es, d + 1 ≤ e.1 := by
      rcases hblock with rfl | ⟨es', rfl, -, hdeep⟩
      · simp
      · intro e he
        rcases List.mem_cons.mp he with rfl | he
        · exact le_rfl
        · exact (hdeep e he).le
    obtain ⟨es', hes', hnested', hdeep'⟩ := hloop n
      (fun j hj => hkids j (List.mem_cons_of_mem k hj))
      (by rw [hes, List.reverse_append, above_append hdeep, habove])
    refine ⟨es ++ es', by rw [hes', hes, List.append_assoc], ?_, ?_⟩
    · rw [nested_append]
      refine ⟨?_, by rwa [hes, List.reverse_append] at hnested'⟩
      rcases hblock with rfl | ⟨es₁, rfl, hnested₁, hdeep₁⟩
      · trivial
      · have hunder : Under (Child S) n (above s.lines.reverse (d + 1)) (d + 1) k := by
          rw [habove]
          exact ⟨rfl, hkids k List.mem_cons_self⟩
        exact ⟨hunder, nested_root ⟨_, List.mem_cons_self, le_rfl⟩ hdeep₁ hnested₁⟩
    · intro e he
      rcases List.mem_append.mp he with he | he
      · exact hdeep e he
      · exact hdeep' e he

/-! ## What does not change -/

/-- Every reading finds the same. -/
def steady (label : ι → Option α) (children : ι → Option (List ι)) : Source ι α :=
  ⟨fun _ => label, fun _ => children⟩

section Steady

variable {label : ι → Option α} {children : ι → Option (List ι)}

/-- The walk goes from a node that can be read to a child. -/
def Leads (label : ι → Option α) (children : ι → Option (List ι)) (n k : ι) : Prop :=
  (label n).isSome = true ∧ ∃ kids, children n = some kids ∧ k ∈ kids

/-- From what is begun on the way, only what was begun before leads out. -/
def Closed (label : ι → Option α) (children : ι → Option (List ι)) (begun begun' : List ι) : Prop :=
  ∀ a ∈ begun', a ∉ begun → ∀ b, Leads label children a b → b ∈ begun'

/-- A line for each node begun that can be read. -/
def Written (label : ι → Option α) (s : State ι (ℕ × ι)) : Prop :=
  ∀ k, k ∈ s.lines.map Prod.snd ↔ k ∈ s.begun ∧ (label k).isSome = true

theorem visit_written {s s' : State ι (ℕ × ι)}
    (h : visit depths (steady label children) skip fuel d n s = some s') (hs : Written label s) :
    Written label s' := by
  have hwrite : ∀ (d : ℕ) (n : ι) (s : State ι (ℕ × ι)) (a : α), label n = some a →
      Written label s → Written label ((s.start n).write ((d, n) : ℕ × ι)) := by
    intro d n s a hl hs k
    have hk := hs k
    simp only [State.write, State.start, List.map_append, List.mem_append, List.mem_cons,
      List.map_cons, List.map_nil, List.not_mem_nil, or_false, hk]
    constructor
    · rintro (⟨hb, hr⟩ | rfl)
      · exact ⟨.inr hb, hr⟩
      · exact ⟨.inl rfl, by simp [hl]⟩
    · rintro ⟨rfl | hb, hr⟩
      · exact .inr rfl
      · exact .inl ⟨hb, hr⟩
  refine visit_rule (P := fun _ _ s s' => Written label s → Written label s')
    (Q := fun _ _ s s' => Written label s → Written label s') ?_ ?_ ?_ ?_ ?_ ?_ h hs
  · exact fun _ _ _ _ hs => hs
  · intro _ n s _ hl hs k
    have hk := hs k
    simp only [State.start, List.mem_cons, hk]
    refine ⟨fun h => ⟨.inr h.1, h.2⟩, fun h => ?_⟩
    rcases h.1 with rfl | hb
    · have hread : (label k).isSome = true := h.2
      rw [show label k = none from hl] at hread
      cases hread
    · exact ⟨hb, h.2⟩
  · exact fun d n s a _ hl _ hs => hwrite d n s a hl hs
  · exact fun d n s a _ _ _ hl _ hloop hs => hloop (hwrite d n s a hl hs)
  · exact fun _ _ hs => hs
  · exact fun _ _ _ _ _ _ hvisit hloop hs => hloop (hvisit hs)

variable [DecidableEq ι]

/-- What a walk begins. -/
theorem visit_closed (h : visit T (steady label children) once fuel c n s = some s') :
    n ∈ s'.begun ∧ (∀ a ∈ s'.begun, a ∈ s.begun ∨ ReflTransGen (Leads label children) n a) ∧
      Closed label children s.begun s'.begun := by
  have hsub := begun_subset h
  suffices hrule : s.begun ⊆ s'.begun ∧ n ∈ s'.begun ∧
      (∀ a ∈ s'.begun, a ∈ s.begun ∨ ReflTransGen (Leads label children) n a) ∧
      Closed label children s.begun s'.begun from hrule.2
  refine visit_rule
    (P := fun _ n s s' => s.begun ⊆ s'.begun ∧ n ∈ s'.begun ∧
      (∀ a ∈ s'.begun, a ∈ s.begun ∨ ReflTransGen (Leads label children) n a) ∧
      Closed label children s.begun s'.begun)
    (Q := fun _ kids s s' => s.begun ⊆ s'.begun ∧ kids ⊆ s'.begun ∧
      (∀ a ∈ s'.begun, a ∈ s.begun ∨ ∃ k ∈ kids, ReflTransGen (Leads label children) k a) ∧
      Closed label children s.begun s'.begun) ?_ ?_ ?_ ?_ ?_ ?_ h
  · exact fun _ n s hskip => ⟨List.Subset.refl _, once_eq_true.mp hskip, fun _ ha => .inl ha,
      fun _ ha hna => (hna ha).elim⟩
  · intro _ n s _ hl
    refine ⟨List.subset_cons_self _ _, List.mem_cons_self, fun a ha => ?_, fun a ha hna b hab => ?_⟩
    · rcases List.mem_cons.mp ha with rfl | ha
      · exact .inr .refl
      · exact .inl ha
    · rcases List.mem_cons.mp ha with rfl | ha
      · have hread := hab.1
        rw [show label a = none from hl] at hread
        cases hread
      · exact (hna ha).elim
  · intro _ n s _ _ _ hc
    refine ⟨List.subset_cons_self _ _, List.mem_cons_self, fun a ha => ?_, fun a ha hna b hab => ?_⟩
    · rcases List.mem_cons.mp ha with rfl | ha
      · exact .inr .refl
      · exact .inl ha
    · rcases List.mem_cons.mp ha with rfl | ha
      · obtain ⟨-, kids, hkids, -⟩ := hab
        rw [show children a = none from hc] at hkids
        cases hkids
      · exact (hna ha).elim
  · rintro _ n s a kids s' _ hl hc ⟨hsub, hkids, hreach, hclosed⟩
    have hleads : ∀ k ∈ kids, Leads label children n k := fun k hk =>
      ⟨by rw [show label n = some a from hl]; rfl, kids, hc, hk⟩
    refine ⟨List.Subset.trans (List.subset_cons_self n s.begun) hsub, hsub List.mem_cons_self,
      fun b hb => ?_, fun b hb hnb j hbj => ?_⟩
    · rcases hreach b hb with hb | ⟨k, hk, hkb⟩
      · rcases List.mem_cons.mp hb with rfl | hb
        · exact .inr .refl
        · exact .inl hb
      · exact .inr (.head (hleads k hk) hkb)
    · by_cases hbn : b = n
      · subst hbn
        obtain ⟨-, kids', hkids', hj⟩ := hbj
        obtain rfl : kids' = kids := Option.some.inj (hkids'.symm.trans hc)
        exact hkids hj
      · exact hclosed b hb (List.not_mem_cons_of_ne_of_not_mem hbn hnb) j hbj
  · exact fun _ s => ⟨List.Subset.refl _, List.nil_subset _, fun _ ha => .inl ha,
      fun _ ha hna => (hna ha).elim⟩
  · rintro _ k ks s t s' ⟨hsub, hk, hreach, hclosed⟩ ⟨hsub', hks, hreach', hclosed'⟩
    refine ⟨List.Subset.trans hsub hsub', List.cons_subset.mpr ⟨hsub' hk, hks⟩, fun b hb => ?_,
      fun b hb hnb j hbj => ?_⟩
    · rcases hreach' b hb with hb | ⟨j, hj, hjb⟩
      · exact (hreach b hb).imp_right fun h => ⟨k, List.mem_cons_self, h⟩
      · exact .inr ⟨j, List.mem_cons_of_mem k hj, hjb⟩
    · by_cases hbt : b ∈ t.begun
      · exact hsub' (hclosed b hbt hnb j hbj)
      · exact hclosed' b hb hbt j hbj

/-- **A walk from nothing begins what can be reached**, whatever cycles there are. -/
theorem mem_begun_iff (h : visit T (steady label children) once fuel c n s = some s')
    (hs : s.begun = []) : k ∈ s'.begun ↔ ReflTransGen (Leads label children) n k := by
  obtain ⟨hn, hreach, hclosed⟩ := visit_closed h
  rw [hs] at hreach hclosed
  refine ⟨fun hk => (hreach k hk).resolve_left List.not_mem_nil, fun hk => ?_⟩
  induction hk with
  | refl => exact hn
  | tail _ hab ih => exact hclosed _ ih List.not_mem_nil _ hab

/-! ## Forests -/

/-- **Over a forest nothing needs to be left out**: the plain walk and the one that leaves out what
it has begun are the same. -/
theorem visit_never_eq
    (hparent : ∀ a b k, Leads label children a k → Leads label children b k → a = b)
    (hacyclic : ∀ a, ¬ TransGen (Leads label children) a a)
    (hnodup : ∀ a kids, children a = some kids → kids.Nodup)
    (hfresh : ∀ k, ReflTransGen (Leads label children) n k → k ∉ s.begun) :
    visit T (steady label children) never fuel c n s =
      visit T (steady label children) once fuel c n s := by
  induction fuel generalizing c n s with
  | zero => rfl
  | succ fuel ih =>
    have hskip : never s.begun n = false := rfl
    have hskip' : once s.begun n = false := once_eq_false.mpr (hfresh n .refl)
    cases hl : (steady label children).label s.clock n with
    | none => rw [visit_unread hskip hl, visit_unread hskip' hl]
    | some a =>
      cases hc : (steady label children).children (s.clock + 1) n with
      | none => rw [visit_alone hskip hl hc, visit_alone hskip' hl hc]
      | some kids =>
        rw [visit_each hskip hl hc, visit_each hskip' hl hc]
        have hleads : ∀ k ∈ kids, Leads label children n k := fun k hk =>
          ⟨by rw [show label n = some a from hl]; rfl, kids, hc, hk⟩
        have hkids := hnodup n kids hc
        have hfree : ∀ k ∈ kids, ∀ j, ReflTransGen (Leads label children) k j →
            j ∉ ((s.start n).write (T.line c n a)).begun := by
          intro k hk j hkj
          refine List.not_mem_cons_of_ne_of_not_mem ?_ (hfresh j (.head (hleads k hk) hkj))
          rintro rfl
          exact hacyclic j (TransGen.head'_iff.mpr ⟨k, hleads k hk, hkj⟩)
        generalize (s.start n).write (T.line c n a) = u at hfree
        clear hc
        induction kids generalizing u with
        | nil => rfl
        | cons k ks ihks =>
          obtain ⟨hk, hks⟩ := List.nodup_cons.mp hkids
          rw [each, each, ih (hfree k List.mem_cons_self)]
          refine Option.bind_congr fun t ht => ?_
          refine ihks (fun j hj => hleads j (List.mem_cons_of_mem k hj)) hks t
            fun j hj i hji hi => ?_
          rcases (visit_closed ht).2.1 i hi with hi | hki
          · exact hfree j (List.mem_cons_of_mem k hj) i hji hi
          · exact disjoint_of_child hparent hacyclic (hleads k List.mem_cons_self)
              (hleads j (List.mem_cons_of_mem k hj)) (fun h => hk (h ▸ hj)) hki hji

end Steady

end OSCompas.Walk
