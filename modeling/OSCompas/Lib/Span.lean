import Mathlib.Algebra.Order.BigOperators.Group.List
import Mathlib.Algebra.Order.Group.Nat
import Mathlib.Algebra.Ring.Nat
import Mathlib.Order.Interval.Finset.Nat
import Mathlib.Order.Interval.Set.Basic
import Mathlib.Data.List.Perm.Basic
import Mathlib.Order.CompletePartialOrder

/-!
# Address spans

A span is a half-open address range `[lo, lo + len)`.  A layout is a list of spans that are
pairwise apart; the three edits an allocator makes are cutting a span in two
(`pairwise_cut`), joining two adjacent spans (`pairwise_join`) and adding a span (`List` lemmas).
`length_mul_le` bounds the number of spans by the room there is.
-/

set_option autoImplicit false

namespace OSCompas

/-- The address range `[lo, lo + len)`. -/
structure Span where
  lo : Nat
  len : Nat
  deriving DecidableEq, Repr

namespace Span

def hi (r : Span) : Nat := r.lo + r.len

/-- One span ends before the other starts. -/
def Apart (r t : Span) : Prop := r.hi ≤ t.lo ∨ t.hi ≤ r.lo

/-- `r` lies inside `t`. -/
def Within (r t : Span) : Prop := t.lo ≤ r.lo ∧ r.hi ≤ t.hi

instance (r t : Span) : Decidable (Apart r t) := inferInstanceAs (Decidable (_ ∨ _))

variable {r t u r' : Span}

theorem Apart.symm (h : Apart r t) : Apart t r := Or.symm h

theorem Apart.within (h : Apart r t) (hw : Within r' r) : Apart r' t := by
  unfold Apart Within hi at *; omega

/-- Spans that are apart share no address. -/
theorem Apart.disjoint (h : Apart r t) : Disjoint (Set.Ico r.lo r.hi) (Set.Ico t.lo t.hi) := by
  rw [Set.disjoint_left]
  intro x hx ht
  simp only [Set.mem_Ico] at hx ht
  unfold Apart at h
  omega

/-- A non-empty span apart from two adjacent spans is apart from their union. -/
theorem Apart.join (hu : 0 < u.len) (h : Apart r u) (h' : Apart t u) (hadj : r.hi = t.lo) :
    Apart ⟨r.lo, r.len + t.len⟩ u := by
  unfold Apart hi at *
  simp only at *
  omega

/-- Cutting a span: two spans inside it, apart from each other, take its place. -/
theorem pairwise_cut {l : List Span} (h : (r :: l).Pairwise Apart) (ht : Within t r)
    (hu : Within u r) (htu : Apart t u) : (t :: u :: l).Pairwise Apart := by
  obtain ⟨hr, hl⟩ := List.pairwise_cons.mp h
  refine List.pairwise_cons.mpr ⟨?_, List.pairwise_cons.mpr ⟨?_, hl⟩⟩
  · intro x hx
    rcases List.mem_cons.mp hx with rfl | hx
    · exact htu
    · exact (hr x hx).within ht
  · intro x hx
    exact (hr x hx).within hu

/-- Shrinking a span. -/
theorem pairwise_shrink {l : List Span} (h : (r :: l).Pairwise Apart) (ht : Within t r) :
    (t :: l).Pairwise Apart := by
  obtain ⟨hr, hl⟩ := List.pairwise_cons.mp h
  exact List.pairwise_cons.mpr ⟨fun x hx => (hr x hx).within ht, hl⟩

/-- Joining two adjacent spans of a layout without empty spans. -/
theorem pairwise_join {l : List Span} (h : (r :: t :: l).Pairwise Apart)
    (hpos : ∀ x ∈ l, 0 < x.len) (hadj : r.hi = t.lo) :
    (⟨r.lo, r.len + t.len⟩ :: l : List Span).Pairwise Apart := by
  obtain ⟨hr, htl⟩ := List.pairwise_cons.mp h
  obtain ⟨ht, hl⟩ := List.pairwise_cons.mp htl
  exact List.pairwise_cons.mpr ⟨fun x hx =>
    Apart.join (hpos x hx) (hr x (List.mem_cons_of_mem _ hx)) (ht x hx) hadj, hl⟩

/-- Being a layout does not depend on the order. -/
theorem pairwise_perm {l l' : List Span} (h : l.Perm l') :
    l.Pairwise Apart ↔ l'.Pairwise Apart :=
  h.pairwise_iff fun h => Apart.symm h

/-- The addresses covered by a list of spans. -/
def cover : List Span → Finset Nat
  | [] => ∅
  | r :: l => Finset.Ico r.lo r.hi ∪ cover l

theorem mem_cover {l : List Span} {x : Nat} : x ∈ cover l ↔ ∃ r ∈ l, r.lo ≤ x ∧ x < r.hi := by
  induction l with
  | nil => simp [cover]
  | cons r l ih => simp [cover, ih]

theorem card_cover {l : List Span} (h : l.Pairwise Apart) :
    (cover l).card = (l.map len).sum := by
  induction l with
  | nil => rfl
  | cons r l ih =>
    obtain ⟨hr, hl⟩ := List.pairwise_cons.mp h
    have hdis : Disjoint (Finset.Ico r.lo r.hi) (cover l) := by
      rw [Finset.disjoint_left]
      intro x hx hc
      obtain ⟨t, ht, h1, h2⟩ := mem_cover.mp hc
      have hap := hr t ht
      rw [Finset.mem_Ico] at hx
      unfold Apart at hap
      omega
    rw [cover, Finset.card_union_of_disjoint hdis, ih hl, Nat.card_Ico, List.map_cons,
      List.sum_cons]
    unfold hi
    omega

/-- **A layout inside a span has no more bytes than the span.** -/
theorem length_mul_le {l : List Span} {k : Nat} (h : l.Pairwise Apart)
    (hw : ∀ r ∈ l, Within r t) (hk : ∀ r ∈ l, k ≤ r.len) : l.length * k ≤ t.len := by
  have hsub : cover l ⊆ Finset.Ico t.lo t.hi := fun x hx => by
    obtain ⟨r, hr, h1, h2⟩ := mem_cover.mp hx
    obtain ⟨h3, h4⟩ := hw r hr
    exact Finset.mem_Ico.mpr ⟨by omega, by omega⟩
  have hcard := Finset.card_le_card hsub
  rw [card_cover h, Nat.card_Ico] at hcard
  have hsum : (l.map len).length * k ≤ (l.map len).sum :=
    List.card_nsmul_le_sum _ _ fun n hn => by
      obtain ⟨r, hr, rfl⟩ := List.mem_map.mp hn
      exact hk r hr
  rw [List.length_map] at hsum
  unfold hi at hcard
  omega

end Span

end OSCompas
