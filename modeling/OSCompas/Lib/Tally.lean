import Mathlib

/-!
# Tallies

Counts for keys in the order in which the keys first came, each key once: a Python `Counter`, or a
`defaultdict(int)`.

* `Tally` — the entries; `get`, `add`, `total`;
* `sumOn` — the sum of the counts of the keys with a property;
* `regroup` — the counts added up by a function of the key;
* `mostCommon` — the entries with falling counts, equal ones in the order they had.

Principal results: `get_regroup`, `total_regroup`, `sum_get` (the counts looked up key by key are
those of the entries) and `mostCommon_counts_perm` (the counts in falling order do not depend on the
order of the entries).
-/

set_option autoImplicit false

namespace OSCompas

variable {κ γ : Type}

/-- Counts for distinct keys. -/
structure Tally (κ : Type) where
  entries : List (κ × Nat)
  nodup : (entries.map Prod.fst).Nodup

namespace Tally

/-! ## Entries -/

section Entries

variable [DecidableEq κ]

/-- The count of a key, 0 if it has no entry. -/
def find (k : κ) : List (κ × Nat) → Nat
  | [] => 0
  | p :: l => if p.1 = k then p.2 else find k l

/-- Add to the count of a key, or give it an entry at the end. -/
def bump (k : κ) (n : Nat) : List (κ × Nat) → List (κ × Nat)
  | [] => [(k, n)]
  | p :: l => if p.1 = k then (p.1, p.2 + n) :: l else p :: bump k n l

variable {k j : κ} {n : Nat} {l : List (κ × Nat)} {p : κ × Nat}

theorem keys_bump : (bump k n l).map Prod.fst =
    if k ∈ l.map Prod.fst then l.map Prod.fst else l.map Prod.fst ++ [k] := by
  induction l with
  | nil => simp [bump]
  | cons p l ih =>
    by_cases hp : p.1 = k
    · simp [bump, hp]
    · simp only [bump, hp, if_false, List.map_cons, ih, List.mem_cons, Ne.symm hp, false_or]
      split <;> simp

theorem nodup_bump (h : (l.map Prod.fst).Nodup) : ((bump k n l).map Prod.fst).Nodup := by
  rw [keys_bump]
  split
  · exact h
  · rename_i hk
    exact List.nodup_append.mpr ⟨h, List.nodup_singleton k, by
      rintro a ha b hb rfl
      exact hk (List.mem_singleton.mp hb ▸ ha)⟩

theorem find_bump : find j (bump k n l) = find j l + if j = k then n else 0 := by
  induction l with
  | nil => simp [bump, find, eq_comm]
  | cons p l ih =>
    by_cases hp : p.1 = k
    · by_cases hj : j = k
      · simp [bump, find, hp, hj]
      · simp [bump, find, hp, hj, Ne.symm hj]
    · by_cases hpj : p.1 = j
      · have hj : j ≠ k := hpj ▸ hp
        simp [bump, find, hpj, hj]
      · simp [bump, find, hp, hpj, ih]

theorem find_eq_zero (h : k ∉ l.map Prod.fst) : find k l = 0 := by
  induction l with
  | nil => rfl
  | cons p l ih =>
    rw [List.map_cons, List.mem_cons, not_or] at h
    rw [find, if_neg (Ne.symm h.1), ih h.2]

theorem find_of_mem (h : (l.map Prod.fst).Nodup) (hp : p ∈ l) : find p.1 l = p.2 := by
  induction l with
  | nil => cases hp
  | cons q l ih =>
    obtain ⟨hq, hl⟩ := List.nodup_cons.mp h
    obtain rfl | hp := List.mem_cons.mp hp
    · simp [find]
    · have hne : q.1 ≠ p.1 := fun he => hq (he ▸ List.mem_map_of_mem hp)
      rw [find, if_neg hne, ih hl hp]

theorem mem_of_find (h : find k l ≠ 0) : (k, find k l) ∈ l := by
  induction l with
  | nil => exact (h rfl).elim
  | cons p l ih =>
    by_cases hp : p.1 = k
    · subst hp
      simp [find]
    · rw [find, if_neg hp] at h ⊢
      exact List.mem_cons_of_mem p (ih h)

theorem pos_bump (hn : 0 < n) (h : ∀ p ∈ l, 0 < p.2) : ∀ p ∈ bump k n l, 0 < p.2 := by
  induction l with
  | nil => simpa [bump] using hn
  | cons q l ih =>
    rw [List.forall_mem_cons] at h
    rw [bump]
    split
    · exact List.forall_mem_cons.mpr ⟨Nat.add_pos_right q.2 hn, h.2⟩
    · exact List.forall_mem_cons.mpr ⟨h.1, ih h.2⟩

end Entries

/-- The sum of the counts of the keys with a property. -/
def sumOn (p : κ → Bool) (l : List (κ × Nat)) : Nat := ((l.filter fun q => p q.1).map Prod.snd).sum

variable {p : κ → Bool} {l : List (κ × Nat)} {q : κ × Nat} {n : Nat}

@[simp] theorem sumOn_nil : sumOn p [] = 0 := rfl

theorem sumOn_cons : sumOn p (q :: l) = (if p q.1 then q.2 else 0) + sumOn p l := by
  unfold sumOn
  by_cases hq : p q.1 <;> simp [hq]

theorem sumOn_bump [DecidableEq κ] {k : κ} :
    sumOn p (bump k n l) = sumOn p l + if p k then n else 0 := by
  induction l with
  | nil => simp [bump, sumOn_cons]
  | cons q l ih =>
    by_cases hq : q.1 = k
    · subst hq
      simp only [bump, if_true, sumOn_cons]
      split <;> omega
    · simp only [bump, hq, if_false, sumOn_cons, ih, Nat.add_assoc]

/-! ## Tallies -/

def empty : Tally κ := ⟨[], List.nodup_nil⟩

/-- The sum of the counts. -/
def total (t : Tally κ) : Nat := (t.entries.map Prod.snd).sum

/-- The number of keys. -/
def size (t : Tally κ) : Nat := t.entries.length

theorem total_eq_sumOn (t : Tally κ) : t.total = sumOn (fun _ => true) t.entries := by
  simp [total, sumOn]

section Keys

variable [DecidableEq κ] [DecidableEq γ] {t t' : Tally κ} {k j : κ} {f : κ → γ}

/-- `t[k]`, for a `Counter`. -/
def get (t : Tally κ) (k : κ) : Nat := find k t.entries

/-- `t[k] += n` -/
def add (t : Tally κ) (k : κ) (n : Nat) : Tally κ := ⟨bump k n t.entries, nodup_bump t.nodup⟩

theorem get_add : (t.add k n).get j = t.get j + if j = k then n else 0 := find_bump

theorem get_of_mem (h : q ∈ t.entries) : t.get q.1 = q.2 := find_of_mem t.nodup h

theorem mem_of_get (h : t.get q.1 = q.2) (hq : q.2 ≠ 0) : q ∈ t.entries := by
  have hmem : (q.1, t.get q.1) ∈ t.entries := mem_of_find (ne_of_eq_of_ne h hq)
  rwa [h] at hmem

theorem total_add : (t.add k n).total = t.total + n := by
  rw [total_eq_sumOn, total_eq_sumOn]
  simpa [add] using sumOn_bump (p := fun _ => true) (k := k) (n := n) (l := t.entries)

omit [DecidableEq γ] in
/-- One summand that counts. -/
theorem sum_single {ks : List κ} (hks : ks.Nodup) (a : κ) (n : Nat) :
    (ks.map fun k => if k = a then n else 0).sum = if a ∈ ks then n else 0 := by
  induction ks with
  | nil => rfl
  | cons k ks ih =>
    obtain ⟨hk, hks⟩ := List.nodup_cons.mp hks
    by_cases ha : k = a
    · subst ha
      simp [ih hks, hk]
    · simp [ih hks, ha, Ne.symm ha]

/-- **The counts of distinct keys, looked up one by one, are those of their entries.** -/
theorem sum_get {ks : List κ} (hks : ks.Nodup) :
    (ks.map t.get).sum = sumOn (fun k => k ∈ ks) t.entries := by
  unfold get
  obtain ⟨l, hl⟩ := t
  dsimp only
  induction l with
  | nil => simp [find]
  | cons q l ih =>
    obtain ⟨hq, hl⟩ := List.nodup_cons.mp hl
    have hfind : ∀ k, find k (q :: l) = (if k = q.1 then q.2 else 0) + find k l := by
      intro k
      by_cases hk : k = q.1
      · subst hk
        simp [find, find_eq_zero hq]
      · simp [find, hk, Ne.symm hk]
    simp only [hfind, List.sum_map_add, ih hl, sum_single hks, sumOn_cons, decide_eq_true_eq]

/-- Tallies without zeros that look the same have the same entries, in some order. -/
theorem perm_of_get (h : ∀ q ∈ t.entries, 0 < q.2) (h' : ∀ q ∈ t'.entries, 0 < q.2)
    (hget : t.get = t'.get) : t.entries.Perm t'.entries := by
  refine (List.perm_ext_iff_of_nodup t.nodup.of_map t'.nodup.of_map).mpr fun q => ?_
  exact ⟨fun hq => mem_of_get (hget ▸ get_of_mem hq) (Nat.ne_of_gt (h q hq)),
    fun hq => mem_of_get (hget ▸ get_of_mem hq) (Nat.ne_of_gt (h' q hq))⟩

/-! ## Regrouping -/

/-- The counts added up by `f` of the key. -/
def regroup (f : κ → γ) (t : Tally κ) : Tally γ :=
  t.entries.foldl (fun g q => g.add (f q.1) q.2) empty

omit [DecidableEq κ] in
theorem get_foldl_add (l : List (κ × Nat)) (g : Tally γ) (c : γ) :
    (l.foldl (fun g q => g.add (f q.1) q.2) g).get c = g.get c + sumOn (fun k => f k = c) l := by
  induction l generalizing g with
  | nil => rfl
  | cons q l ih =>
    rw [List.foldl_cons, ih, get_add, sumOn_cons, Nat.add_assoc]
    simp [eq_comm]

omit [DecidableEq κ] in
/-- **A group has the sum of the counts of its keys.** -/
theorem get_regroup (c : γ) : (t.regroup f).get c = sumOn (fun k => f k = c) t.entries := by
  rw [regroup, get_foldl_add]
  exact Nat.zero_add _

omit [DecidableEq κ] in
theorem total_foldl_add (l : List (κ × Nat)) (g : Tally γ) :
    (l.foldl (fun g q => g.add (f q.1) q.2) g).total = g.total + (l.map Prod.snd).sum := by
  induction l generalizing g with
  | nil => rfl
  | cons q l ih => rw [List.foldl_cons, ih, total_add, List.map_cons, List.sum_cons, Nat.add_assoc]

omit [DecidableEq κ] in
/-- **Regrouping keeps the total.** -/
theorem total_regroup : (t.regroup f).total = t.total := by
  rw [regroup, total_foldl_add]
  exact Nat.zero_add _

omit [DecidableEq κ] in
theorem pos_foldl_add (l : List (κ × Nat)) (hl : ∀ q ∈ l, 0 < q.2) (g : Tally γ)
    (hg : ∀ q ∈ g.entries, 0 < q.2) :
    ∀ q ∈ (l.foldl (fun g q => g.add (f q.1) q.2) g).entries, 0 < q.2 := by
  induction l generalizing g with
  | nil => exact hg
  | cons q l ih =>
    rw [List.forall_mem_cons] at hl
    exact ih hl.2 _ (pos_bump hl.1 hg)

omit [DecidableEq κ] in
/-- Groups of counts that are not zero are not zero. -/
theorem pos_regroup (h : ∀ q ∈ t.entries, 0 < q.2) : ∀ q ∈ (t.regroup f).entries, 0 < q.2 :=
  pos_foldl_add t.entries h empty (by simp [empty])

omit [DecidableEq κ] in
/-- **Regrouped, the order of the entries decides only the order of the groups.** -/
theorem regroup_perm (h : ∀ q ∈ t.entries, 0 < q.2) (hperm : t.entries.Perm t'.entries) :
    (t.regroup f).entries.Perm (t'.regroup f).entries := by
  refine perm_of_get (pos_regroup h) (pos_regroup fun q hq => h q (hperm.mem_iff.mpr hq)) ?_
  funext c
  rw [get_regroup, get_regroup, sumOn, sumOn]
  exact ((hperm.filter _).map _).sum_eq

/-! ## Groups -/

/-- The first group that has the key, or `other`. -/
def groupOf (groups : List (γ × List κ)) (other : γ) (k : κ) : γ :=
  ((groups.find? fun g => k ∈ g.2).map Prod.fst).getD other

omit [DecidableEq γ] in
/-- With disjoint groups, the group found is the one that has the key. -/
theorem groupOf_eq_iff {groups : List (γ × List κ)} {other : γ} {g : γ × List κ}
    (hnames : (groups.map Prod.fst).Nodup) (hkeys : (groups.flatMap Prod.snd).Nodup)
    (hother : other ∉ groups.map Prod.fst) (hg : g ∈ groups) :
    groupOf groups other k = g.1 ↔ k ∈ g.2 := by
  induction groups with
  | nil => cases hg
  | cons a groups ih =>
    rw [List.map_cons, List.nodup_cons] at hnames
    rw [List.flatMap_cons, List.nodup_append] at hkeys
    rw [List.map_cons, List.mem_cons, not_or] at hother
    have happly (h : k ∉ a.2) : groupOf (a :: groups) other k = groupOf groups other k := by
      simp [groupOf, h]
    have hfirst (h : k ∈ a.2) : groupOf (a :: groups) other k = a.1 := by
      simp [groupOf, h]
    obtain rfl | hg := List.mem_cons.mp hg
    · -- in the first group, or in none of that name
      refine ⟨fun h => ?_, hfirst⟩
      by_contra hk
      rw [happly hk, groupOf] at h
      cases hfind : groups.find? fun b => decide (k ∈ b.2) with
      | none => exact hother.1 (by simpa [hfind] using h)
      | some b =>
        have hb : b.1 ∈ groups.map Prod.fst :=
          List.mem_map_of_mem (List.mem_of_find?_eq_some hfind)
        have hbg : b.1 = g.1 := by simpa [hfind] using h
        exact hnames.1 (hbg ▸ hb)
    · have hne : a.1 ≠ g.1 := fun h => hnames.1 (h ▸ List.mem_map_of_mem hg)
      by_cases hk : k ∈ a.2
      · rw [hfirst hk]
        refine iff_of_false hne fun hkg => ?_
        exact hkeys.2.2 k hk k (List.mem_flatMap.mpr ⟨g, hg, hkg⟩) rfl
      · rw [happly hk]
        exact ih hnames.2 hkeys.2.1 hother.2 hg

/-- **Adding up by the group of each key, and key by key for each group, gives the same.** -/
theorem get_regroup_groupOf {groups : List (γ × List κ)} {other : γ} {g : γ × List κ}
    (hnames : (groups.map Prod.fst).Nodup) (hkeys : (groups.flatMap Prod.snd).Nodup)
    (hother : other ∉ groups.map Prod.fst) (hg : g ∈ groups) :
    (t.regroup (groupOf groups other)).get g.1 = (g.2.map t.get).sum := by
  have hnodup : g.2.Nodup := (List.nodup_flatMap.mp hkeys).1 g hg
  rw [get_regroup, sum_get hnodup]
  simp only [groupOf_eq_iff hnames hkeys hother hg]

/-! ## Counting a list -/

/-- How often each key is in a list. -/
def ofList (ks : List κ) : Tally κ := ks.foldl (fun t k => t.add k 1) empty

omit [DecidableEq γ] in
theorem ofList_concat (ks : List κ) (k : κ) : ofList (ks ++ [k]) = (ofList ks).add k 1 := by
  simp [ofList]

omit [DecidableEq γ] in
theorem get_ofList [BEq κ] [LawfulBEq κ] (ks : List κ) (k : κ) :
    (ofList ks).get k = ks.count k := by
  induction ks using List.reverseRecOn with
  | nil => rfl
  | append_singleton ks j ih =>
    rw [ofList_concat, get_add, ih, List.count_append, List.count_singleton]
    by_cases hj : k = j
    · simp [hj]
    · simp [hj, Ne.symm hj]

omit [DecidableEq γ] in
theorem total_ofList (ks : List κ) : (ofList ks).total = ks.length := by
  induction ks using List.reverseRecOn with
  | nil => rfl
  | append_singleton ks j ih => rw [ofList_concat, total_add, ih, List.length_append]; rfl

omit [DecidableEq γ] in
theorem mem_keys_ofList (ks : List κ) : k ∈ (ofList ks).entries.map Prod.fst ↔ k ∈ ks := by
  induction ks using List.reverseRecOn with
  | nil => simp [ofList, empty]
  | append_singleton ks j ih =>
    rw [ofList_concat, add, keys_bump, List.mem_append, List.mem_singleton, ← ih]
    split
    · rename_i hj
      exact ⟨.inl, fun h => h.elim id fun h => h ▸ hj⟩
    · rw [List.mem_append, List.mem_singleton]

omit [DecidableEq γ] in
/-- The entries are the elements with their counts. -/
theorem mem_ofList [BEq κ] [LawfulBEq κ] {ks : List κ} :
    q ∈ (ofList ks).entries ↔ q.1 ∈ ks ∧ q.2 = ks.count q.1 := by
  rw [← mem_keys_ofList ks, ← get_ofList]
  refine ⟨fun h => ⟨List.mem_map_of_mem h, (get_of_mem h).symm⟩, fun ⟨h, hn⟩ => ?_⟩
  obtain ⟨q', hq', hk⟩ := List.mem_map.mp h
  have : q' = q := Prod.ext hk (by rw [hn, ← hk, get_of_mem hq'])
  exact this ▸ hq'

omit [DecidableEq γ] in
/-- **Lists with the same elements have the same entries, in some order.** -/
theorem ofList_perm {ks js : List κ} (h : ks.Perm js) :
    (ofList ks).entries.Perm (ofList js).entries := by
  refine (List.perm_ext_iff_of_nodup (ofList ks).nodup.of_map (ofList js).nodup.of_map).mpr
    fun q => ?_
  rw [mem_ofList, mem_ofList, h.mem_iff, h.count_eq]

end Keys

/-! ## The most common -/

/-- `most_common()`, and `sorted` by the counts in reverse. -/
def mostCommon (t : Tally κ) : List (κ × Nat) := t.entries.insertionSort fun a b => b.2 ≤ a.2

theorem mem_mostCommon {t : Tally κ} : q ∈ t.mostCommon ↔ q ∈ t.entries :=
  List.mem_insertionSort _

theorem mostCommon_counts (t : Tally κ) :
    t.mostCommon.map Prod.snd = (t.entries.map Prod.snd).insertionSort (· ≥ ·) :=
  List.map_insertionSort _ _ _ _ fun _ _ _ _ => Iff.rfl

/-- **The counts in falling order do not depend on the order of the entries.** -/
theorem mostCommon_counts_perm {t t' : Tally κ} (h : t.entries.Perm t'.entries) :
    t.mostCommon.map Prod.snd = t'.mostCommon.map Prod.snd := by
  rw [mostCommon_counts, mostCommon_counts]
  refine List.Perm.eq_of_pairwise (fun a b _ _ hab hba => Nat.le_antisymm hba hab)
    (List.pairwise_insertionSort _ _) (List.pairwise_insertionSort _ _) ?_
  exact ((List.perm_insertionSort _ _).trans (h.map _)).trans (List.perm_insertionSort _ _).symm

end Tally

end OSCompas
