import Mathlib.Data.Fintype.Card
import Mathlib.Data.List.Nodup
import Mathlib.Logic.Relation
import Mathlib.Order.WellFounded

/-!
# Listing a forest

A node's descendants written in lines, a node one step deeper than its parent and under it.  Nothing
here names a program.

* `Listing child n d es` — `es` is what a walk over the children of `n`, and at each over its own,
  writes from depth `d` on;
* `Nested`, `Complete` — what a reader of the lines can check.

Principal results: `Listing.complete` and `exists_leaf`.
-/

set_option autoImplicit false

namespace OSCompas.Forest

open Relation

variable {ι : Type*} {child : ι → ι → Prop} {n k root : ι} {d d' : ℕ} {es es' seen : List (ℕ × ι)}

/-- A walk over the children in some order. -/
inductive Listing (child : ι → ι → Prop) : ι → ℕ → List (ℕ × ι) → Prop
  | walk {n : ι} {d : ℕ} (kids : List ι) (below : ι → List (ℕ × ι)) (nodup : kids.Nodup)
      (mem : ∀ k, k ∈ kids ↔ child n k) (deeper : ∀ k ∈ kids, Listing child k (d + 1) (below k)) :
      Listing child n d (kids.flatMap fun k => (d, k) :: below k)

/-! ## What a reader can check -/

/-- The line that one of depth `d` stands under, the last line first: the last that is less deep. -/
def above (seen : List (ℕ × ι)) (d : ℕ) : Option (ℕ × ι) := seen.find? (·.1 < d)

/-- Under nothing stand the children of the root, and under a line those of its node, one step
deeper. -/
def Under (child : ι → ι → Prop) (root : ι) : Option (ℕ × ι) → ℕ → ι → Prop
  | none, d, k => d = 0 ∧ child root k
  | some e, d, k => d = e.1 + 1 ∧ child e.2 k

/-- Every line stands under its parent's. -/
def Nested (child : ι → ι → Prop) (root : ι) : List (ℕ × ι) → List (ℕ × ι) → Prop
  | _, [] => True
  | seen, (d, k) :: es =>
    Under child root (above seen d) d k ∧ Nested child root ((d, k) :: seen) es

/-- Every descendant once, under its parent. -/
structure Complete (child : ι → ι → Prop) (n : ι) (es : List (ℕ × ι)) : Prop where
  nodup : (es.map Prod.snd).Nodup
  mem : ∀ k, k ∈ es.map Prod.snd ↔ TransGen child n k
  nested : Nested child n [] es

/-! ## Listings are complete -/

theorem nested_append : Nested child root seen (es ++ es') ↔
    Nested child root seen es ∧ Nested child root (es.reverse ++ seen) es' := by
  induction es generalizing seen with
  | nil => simp [Nested]
  | cons e es ih => simp [Nested, ih, and_assoc]

/-- Deeper lines are not what one stands under. -/
theorem above_append (h : ∀ e ∈ es, d ≤ e.1) : above (es.reverse ++ seen) d = above seen d := by
  have hnone : es.reverse.find? (·.1 < d) = none := by
    rw [List.find?_eq_none]
    intro e he
    simpa using h e (List.mem_reverse.mp he)
  rw [above, List.find?_append, hnone, Option.none_or]
  rfl

/-- The lines of a listing are as deep as its first. -/
theorem Listing.le_depth (h : Listing child n d es) : ∀ e ∈ es, d ≤ e.1 := by
  induction h with
  | walk kids below nodup mem deeper ih =>
    intro e he
    obtain ⟨k, hk, he⟩ := List.mem_flatMap.mp he
    rcases List.mem_cons.mp he with rfl | he
    · exact le_rfl
    · exact Nat.le_of_succ_le (ih k hk e he)

/-- The nodes of a listing are the descendants. -/
theorem Listing.mem_iff (h : Listing child n d es) :
    k ∈ es.map Prod.snd ↔ TransGen child n k := by
  induction h with
  | walk kids below nodup mem deeper ih =>
    rw [TransGen.head'_iff, List.map_flatMap, List.mem_flatMap]
    refine exists_congr fun j => ?_
    rw [← mem j]
    refine and_congr_right fun hj => ?_
    rw [List.map_cons, List.mem_cons, ih j hj, reflTransGen_iff_eq_or_transGen]

/-- Where parents are unique, two of one node's children have no descendant in common. -/
theorem disjoint_of_child (hparent : ∀ a b c, child a c → child b c → a = b)
    (hacyclic : ∀ a, ¬ TransGen child a a) {i j : ι} (hi : child n i) (hj : child n j)
    (hij : i ≠ j) (hik : ReflTransGen child i k) : ¬ ReflTransGen child j k := by
  intro hjk
  have hcycle : ∀ a b, child n a → child n b → a ≠ b → ¬ ReflTransGen child a b := by
    intro a b ha hb hab h
    rcases (reflTransGen_iff_eq_or_transGen.mp h) with rfl | h
    · exact hab rfl
    · obtain ⟨m, ham, hmb⟩ := TransGen.tail'_iff.mp h
      obtain rfl := hparent n m b hb hmb
      exact hacyclic n (TransGen.head' ha ham)
  have hunique : Relator.RightUnique (Function.swap child) := fun c a b ha hb => hparent a b c ha hb
  rcases ReflTransGen.total_of_right_unique hunique hik.swap hjk.swap with h | h
  · exact hcycle j i hj hi hij.symm (reflTransGen_swap.mp h)
  · exact hcycle i j hi hj hij (reflTransGen_swap.mp h)

/-- No node is listed twice. -/
theorem Listing.nodup (hparent : ∀ a b c, child a c → child b c → a = b)
    (hacyclic : ∀ a, ¬ TransGen child a a) (h : Listing child n d es) :
    (es.map Prod.snd).Nodup := by
  induction h with
  | @walk n d kids below nodup mem deeper ih =>
    have hmem : ∀ i ∈ kids, ∀ k, k ∈ ((d, i) :: below i).map Prod.snd ↔ ReflTransGen child i k :=
      fun i hi k => by
        rw [List.map_cons, List.mem_cons, (deeper i hi).mem_iff, reflTransGen_iff_eq_or_transGen]
    rw [List.map_flatMap, List.nodup_flatMap]
    refine ⟨fun i hi => ?_, nodup.imp_of_mem fun {i j} hi hj hij k hik hjk => ?_⟩
    · rw [List.map_cons, List.nodup_cons, (deeper i hi).mem_iff]
      exact ⟨hacyclic i, ih i hi⟩
    · exact disjoint_of_child hparent hacyclic ((mem i).mp hi) ((mem j).mp hj) hij
        ((hmem i hi k).mp hik) ((hmem j hj k).mp hjk)

/-- Under what one child of a node may stand, its listing nests. -/
theorem Listing.nested (h : Listing child n d es)
    (hunder : ∀ k, child n k → Under child root (above seen d) d k) :
    Nested child root seen es := by
  induction h generalizing seen with
  | @walk n d kids below nodup mem deeper ih =>
    have hkids : ∀ k ∈ kids, child n k := fun k => (mem k).mp
    clear nodup mem
    induction kids generalizing seen with
    | nil => exact trivial
    | cons k kids ihkids =>
      have hk := hunder k (hkids k List.mem_cons_self)
      have hdeep : ∀ e ∈ (d, k) :: below k, d ≤ e.1 := by
        intro e he
        rcases List.mem_cons.mp he with rfl | he
        · exact le_rfl
        · exact Nat.le_of_succ_le ((deeper k List.mem_cons_self).le_depth e he)
      rw [List.flatMap_cons, nested_append]
      refine ⟨⟨hk, ih k List.mem_cons_self fun j hj => ?_⟩, ?_⟩
      · have habove : above ((d, k) :: seen) (d + 1) = some (d, k) :=
          List.find?_cons_of_pos (by simp)
        rw [habove]
        exact ⟨rfl, hj⟩
      · refine ihkids (fun j hj => deeper j (List.mem_cons_of_mem k hj))
          (fun j hj => ih j (List.mem_cons_of_mem k hj)) ?_
          (fun j hj => hkids j (List.mem_cons_of_mem k hj))
        rw [above_append hdeep]
        exact hunder

/-- **A walk from the first depth on is complete.** -/
theorem Listing.complete (hparent : ∀ a b c, child a c → child b c → a = b)
    (hacyclic : ∀ a, ¬ TransGen child a a) (h : Listing child n 0 es) : Complete child n es where
  nodup := h.nodup hparent hacyclic
  mem _ := h.mem_iff
  nested := h.nested fun _ hk => ⟨rfl, hk⟩

/-! ## Finite forests -/

/-- Without a cycle there is an end to going down. -/
theorem wellFounded [Finite ι] (hacyclic : ∀ a, ¬ TransGen child a a) :
    WellFounded (Function.swap child) := by
  have : Std.Irrefl (Function.swap (TransGen child)) := ⟨hacyclic⟩
  have hwf := Finite.wellFounded_of_trans_of_irrefl (Function.swap (TransGen child))
  have hsub : Subrelation (Function.swap child) (Function.swap (TransGen child)) :=
    fun h => TransGen.single h
  exact hsub.wf hwf

/-- **Below a node with children is one without.** -/
theorem exists_leaf (hwf : WellFounded (Function.swap child)) (h : child n k) :
    ∃ l, TransGen child n l ∧ ∀ m, ¬ child l m := by
  obtain ⟨l, hl, hmin⟩ := hwf.has_min {l | TransGen child n l} ⟨k, TransGen.single h⟩
  exact ⟨l, hl, fun m hm => hmin m (TransGen.tail hl hm) hm⟩

end OSCompas.Forest
