import Mathlib.Data.List.Infix

/-!
# Streams in pieces

A stream that arrives in pieces, and a judge who looks at one piece at a time and stops at the first
that says something.  Nothing here names a program.

* `Cut` — pieces of the stream, none of them empty and none longer than `n`;
* `singles` — every element on its own.

The verdict on a stream that was cut is `List.findSome?` of the judge.

Principal results: `Cut.exists_piece`, `Cut.exists_verdict` and `findSome?_of_before`.
-/

set_option autoImplicit false

namespace OSCompas.Pieces

variable {α β : Type} {n : Nat} {s t a b p : List α} {ps qs before after : List (List α)} {c : α}
  {judge : List α → Option β} {r : β}

structure Cut (n : Nat) (s : List α) (ps : List (List α)) : Prop where
  flatten : ps.flatten = s
  nonempty : ∀ p ∈ ps, p ≠ []
  short : ∀ p ∈ ps, p.length ≤ n

def singles (s : List α) : List (List α) := s.map fun x => [x]

theorem singles_append_cons (s : List α) (c : α) (t : List α) :
    singles (s ++ c :: t) = singles s ++ [c] :: singles t := by
  rw [singles, List.map_append, List.map_cons]
  rfl

/-! ## Cutting -/

theorem Cut.nil : Cut n ([] : List α) [] where
  flatten := rfl
  nonempty _ hp := absurd hp List.not_mem_nil
  short _ hp := absurd hp List.not_mem_nil

theorem Cut.single (hp : p ≠ []) (hn : p.length ≤ n) : Cut n p [p] where
  flatten := by simp
  nonempty q hq := by rwa [List.mem_singleton.mp hq]
  short q hq := by rwa [List.mem_singleton.mp hq]

theorem Cut.append (hs : Cut n s ps) (ht : Cut n t qs) : Cut n (s ++ t) (ps ++ qs) where
  flatten := by rw [List.flatten_append, hs.flatten, ht.flatten]
  nonempty p hp := (List.mem_append.mp hp).elim (hs.nonempty p) (ht.nonempty p)
  short p hp := (List.mem_append.mp hp).elim (hs.short p) (ht.short p)

theorem cut_singles (hn : 0 < n) (s : List α) : Cut n s (singles s) := by
  induction s with
  | nil => exact Cut.nil
  | cons x s ih => exact (Cut.single (List.cons_ne_nil x []) hn).append ih

/-- A piece is a part of the stream. -/
theorem Cut.infix_of_mem (h : Cut n s ps) (hp : p ∈ ps) : p <:+: s := by
  rw [← h.flatten]
  exact List.infix_of_mem_flatten hp

/-- The piece that an element of the stream is in, and what lies before it. -/
theorem Cut.exists_piece (h : Cut n (s ++ c :: t) ps) :
    ∃ before p after a b, ps = before ++ p :: after ∧ p = a ++ c :: b ∧
      s = before.flatten ++ a ∧ a.length < n := by
  obtain ⟨hflat, -, hshort⟩ := h
  induction ps generalizing s with
  | nil => simp at hflat
  | cons p ps ih =>
    rw [List.flatten_cons] at hflat
    rcases List.append_eq_append_iff.mp hflat with ⟨u, hs, hrest⟩ | ⟨u, hp, hrest⟩
    · obtain ⟨before, q, after, a, b, hps, hq, hu, ha⟩ :=
        ih hrest fun q hq => hshort q (List.mem_cons_of_mem _ hq)
      refine ⟨p :: before, q, after, a, b, by rw [hps, List.cons_append], hq, ?_, ha⟩
      rw [hs, hu, List.flatten_cons, List.append_assoc]
    · cases u with
      | nil =>
        obtain ⟨before, q, after, a, b, hps, hq, hu, ha⟩ :=
          ih (s := []) (by simpa using hrest.symm) fun q hq => hshort q (List.mem_cons_of_mem _ hq)
        refine ⟨p :: before, q, after, a, b, by rw [hps, List.cons_append], hq, ?_, ha⟩
        rw [List.flatten_cons, List.append_assoc, ← hu, hp, List.append_nil, List.append_nil]
      | cons x u =>
        obtain ⟨rfl, -⟩ := List.cons.inj hrest
        refine ⟨[], p, ps, s, u, rfl, hp, rfl, ?_⟩
        have hlen := hshort p List.mem_cons_self
        rw [hp, List.length_append, List.length_cons] at hlen
        omega

/-! ## Verdicts -/

theorem findSome?_singles (h : ∀ x ∈ s, judge [x] = none) :
    (singles s).findSome? judge = none := by
  rw [List.findSome?_eq_none_iff]
  intro p hp
  obtain ⟨x, hx, rfl⟩ := List.mem_map.mp hp
  exact h x hx

/-- A piece with an answer, and nothing else before it. -/
theorem findSome?_of_before (hb : ∀ q ∈ before, judge q = none ∨ judge q = some r)
    (hp : judge p = some r) : (before ++ p :: after).findSome? judge = some r := by
  induction before with
  | nil => simp [hp]
  | cons q before ih =>
    have hrest := ih fun q' hq' => hb q' (List.mem_cons_of_mem _ hq')
    rcases hb q List.mem_cons_self with hq | hq
    · rw [List.cons_append, List.findSome?_cons_of_isNone (by simp [hq]), hrest]
    · rw [List.cons_append, List.findSome?_cons_of_isSome (by simp [hq]), hq]

/-- A part of the stream that can be a piece may be one, after any cut of what lies before it. -/
theorem Cut.exists_verdict (hn : 0 < n) (hs : Cut n s ps) (hnone : ps.findSome? judge = none)
    (hp : p ≠ []) (hshort : p.length ≤ n) (hjudge : judge p = some r) (t : List α) :
    ∃ qs, Cut n (s ++ p ++ t) qs ∧ qs.findSome? judge = some r := by
  refine ⟨ps ++ [p] ++ singles t, (hs.append (.single hp hshort)).append (cut_singles hn t), ?_⟩
  rw [List.findSome?_append, List.findSome?_append, hnone, List.findSome?_singleton, hjudge]
  rfl

end OSCompas.Pieces
