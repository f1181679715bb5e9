import Mathlib.Data.List.Nodup

/-!
# Singly linked lists with two ends

A list of nodes that carry their successor: `next` gives it, `head` and `tail` are the ends.  The
node type is arbitrary.

* `IsList next head tail l` — the nodes from `head` to `tail` are `l`, each once.

Principal results: `IsList.unlink` (a node is taken out by writing its predecessor, or the head)
and `IsList.next_none_iff`.
-/

set_option autoImplicit false

namespace OSCompas.Linked

variable {ι : Type}

/-- The nodes between `head` and `tail` are `l`. -/
structure IsList (next : ι → Option ι) (head tail : Option ι) (l : List ι) : Prop where
  nodup : l.Nodup
  head_eq : head = l.head?
  tail_eq : tail = l.getLast?
  next_eq : ∀ a x b, l = a ++ x :: b → next x = b.head?

variable {next next' : ι → Option ι} {head tail : Option ι} {l a b : List ι} {x : ι}

theorem isList_singleton (h : next x = none) : IsList next (some x) (some x) [x] := by
  refine ⟨List.nodup_singleton x, rfl, rfl, ?_⟩
  intro a y b he
  cases a with
  | nil =>
    obtain ⟨rfl, rfl⟩ := List.cons.inj he
    exact h
  | cons z a => simp at he

/-- The successor of a node in the middle. -/
theorem IsList.next_middle (h : IsList next head tail (a ++ x :: b)) : next x = b.head? :=
  h.next_eq a x b rfl

/-- A node has no successor exactly if it is the last. -/
theorem IsList.next_none_iff (h : IsList next head tail (a ++ x :: b)) :
    next x = none ↔ b = [] := by
  rw [h.next_middle, List.head?_eq_none_iff]

/-- **Taking a node out**: its predecessor gets its successor. -/
theorem IsList.unlink (h : IsList next head tail (a ++ x :: b))
    (hlast : ∀ t, a.getLast? = some t → next' t = b.head?)
    (hn : ∀ y, a.getLast? ≠ some y → next' y = next y) :
    IsList next' (if a = [] then b.head? else head) (if b = [] then a.getLast? else tail)
      (a ++ b) := by
  have hnd : (a ++ b).Nodup := (List.nodup_middle.mp h.nodup).of_cons
  obtain ⟨ha, -, hab⟩ := List.nodup_append.mp hnd
  refine ⟨hnd, ?_, ?_, ?_⟩
  · cases a with
    | nil => rfl
    | cons z a => simp [h.head_eq]
  · cases b with
    | nil => simp
    | cons z b => simp [h.tail_eq, List.getLast?_append, List.getLast?_cons]
  · intro c y d he
    rcases List.append_eq_append_iff.mp he with ⟨m, hc, hb⟩ | ⟨m, rfl, hd⟩
    · -- `y` is behind the gap
      have hy : y ∈ b := by simp [hb]
      have hlast' : a.getLast? ≠ some y := fun hl => hab y (List.mem_of_getLast? hl) y hy rfl
      rw [hn y hlast']
      exact h.next_eq (a ++ x :: m) y d (by simp [hb])
    · cases m with
      | nil =>
        rw [List.nil_append] at hd
        have hy : y ∈ b := by simp [← hd]
        have hlast' : (c ++ []).getLast? ≠ some y :=
          fun hl => hab y (List.mem_of_getLast? hl) y hy rfl
        rw [hn y hlast']
        exact h.next_eq (c ++ [] ++ [x]) y d (by simp [← hd])
      | cons z m =>
        -- `y` is in front of the gap
        obtain ⟨rfl, rfl⟩ := List.cons.inj hd
        cases m with
        | nil => exact hlast y (by simp)
        | cons w m =>
          have hyw : y ∉ w :: m := by
            have hnd' := (List.nodup_append.mp ha).2.1
            exact (List.nodup_cons.mp hnd').1
          have hlast' : (c ++ y :: w :: m).getLast? ≠ some y := by
            rw [List.getLast?_append_of_ne_nil _ (by simp), List.getLast?_cons_cons]
            exact fun hl => hyw (List.mem_of_getLast? hl)
          rw [hn y hlast']
          exact h.next_eq c y (w :: m ++ x :: b) (by simp)

end OSCompas.Linked
