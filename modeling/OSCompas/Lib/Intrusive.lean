import OSCompas.Lib.Chain
import Mathlib.Data.List.Induction
import Mathlib.Logic.Function.Basic

/-!
# Doubly linked intrusive queues

A queue of nodes that carry their own links: `next` and `prev` give the neighbours of every node,
`head` and `tail` the ends.  The node type is arbitrary; `next` and `prev` are shared by all
queues, so an edit of one queue has to leave the nodes of the others alone.

* `Linked next prev before after l` — inside `l` the links are the neighbours in `l`, and at its
  ends they are `before` and `after`;
* `IsQueue next prev after head tail l` — the nodes between `head` and `tail` are `l`.

Principal results: the edits `IsQueue.pushBack`, `IsQueue.popFront` and `IsQueue.unlink`, the
frame `IsQueue.congr`, and `IsQueue.isChain` (following `next` from the head visits exactly `l`) with
its converse `linked_of_isChain`.
-/

set_option autoImplicit false

namespace OSCompas.Intrusive

open Chain

variable {ι : Type}

/-- The links of the nodes `l`, where `before` and `after` stand at the two ends. -/
def Linked (next prev : ι → Option ι) : Option ι → Option ι → List ι → Prop
  | _, _, [] => True
  | before, after, x :: xs =>
    prev x = before ∧ next x = xs.head?.or after ∧ Linked next prev (some x) after xs

/-- A queue of the nodes `l`; `after` is what the last node has for a successor. -/
structure IsQueue (next prev : ι → Option ι) (after head tail : Option ι) (l : List ι) :
    Prop where
  nodup : l.Nodup
  head_eq : head = l.head?
  tail_eq : tail = l.getLast?
  linked : Linked next prev none after l

variable {next prev next' prev' : ι → Option ι} {before after after' head tail : Option ι}
variable {l l' r : List ι} {x y t : ι}

/-! ## Links -/

theorem Linked.congr (h : Linked next prev before after l) (hn : ∀ y ∈ l, next' y = next y)
    (hp : ∀ y ∈ l, prev' y = prev y) : Linked next' prev' before after l := by
  induction l generalizing before with
  | nil => trivial
  | cons x xs ih =>
    obtain ⟨h1, h2, h3⟩ := h
    refine ⟨(hp x (by simp)).trans h1, (hn x (by simp)).trans h2, ih h3 ?_ ?_⟩
    · exact fun y hy => hn y (List.mem_cons_of_mem _ hy)
    · exact fun y hy => hp y (List.mem_cons_of_mem _ hy)

theorem linked_append : Linked next prev before after (l ++ r) ↔
    Linked next prev before (r.head?.or after) l ∧
      Linked next prev (l.getLast?.or before) after r := by
  induction l generalizing before with
  | nil => simp [Linked]
  | cons x xs ih =>
    simp only [List.cons_append, Linked, ih]
    cases xs with
    | nil =>
      simp [Linked]
      tauto
    | cons y ys =>
      simp only [List.cons_append, List.head?_cons, Option.some_or, List.getLast?_cons_cons]
      rw [List.getLast?_cons]
      simp only [Option.some_or]
      tauto

/-- Changing what follows the last node, and nothing else. -/
theorem Linked.setAfter (h : Linked next prev before after (l ++ [t])) (hn : next' t = after')
    (hag : ∀ y ∈ l, next' y = next y) (hp : ∀ y ∈ l ++ [t], prev' y = prev y) :
    Linked next' prev' before after' (l ++ [t]) := by
  obtain ⟨h1, h2⟩ := linked_append.mp h
  refine linked_append.mpr ⟨h1.congr hag fun y hy => hp y (by simp [hy]), ?_, ?_, trivial⟩
  · exact (hp t (by simp)).trans h2.1
  · simpa using hn

/-- Changing what precedes the first node, and nothing else. -/
theorem Linked.setBefore {before' : Option ι} (h : Linked next prev before after (x :: l))
    (hp : prev' x = before') (hag : ∀ y ∈ l, prev' y = prev y)
    (hn : ∀ y ∈ x :: l, next' y = next y) : Linked next' prev' before' after (x :: l) := by
  obtain ⟨-, h2, h3⟩ := h
  exact ⟨hp, (hn x (by simp)).trans h2, h3.congr (fun y hy => hn y (by simp [hy])) hag⟩

/-! ## Queues -/

theorem isQueue_nil : IsQueue next prev after head tail [] ↔ head = none ∧ tail = none := by
  constructor
  · intro h
    exact ⟨h.head_eq, h.tail_eq⟩
  · rintro ⟨rfl, rfl⟩
    exact ⟨List.nodup_nil, rfl, rfl, trivial⟩

/-- A queue only depends on the links of its own nodes. -/
theorem IsQueue.congr (h : IsQueue next prev after head tail l) (hn : ∀ y ∈ l, next' y = next y)
    (hp : ∀ y ∈ l, prev' y = prev y) : IsQueue next' prev' after head tail l :=
  ⟨h.nodup, h.head_eq, h.tail_eq, h.linked.congr hn hp⟩

theorem IsQueue.head_none_iff (h : IsQueue next prev after head tail l) :
    head = none ↔ l = [] := by
  rw [h.head_eq, List.head?_eq_none_iff]

theorem IsQueue.tail_none_iff (h : IsQueue next prev after head tail l) :
    tail = none ↔ l = [] := by
  rw [h.tail_eq, List.getLast?_eq_none_iff]

/-- The two ends are the same exactly if there is at most one node. -/
theorem IsQueue.head_eq_tail_iff (h : IsQueue next prev after head tail l) :
    head = tail ↔ l.length ≤ 1 := by
  rw [h.head_eq, h.tail_eq]
  cases l with
  | nil => simp
  | cons x xs =>
    cases xs with
    | nil => simp
    | cons y ys =>
      -- the last node is among `y :: ys`, which `x` is not
      have hx : x ∉ y :: ys := (List.nodup_cons.mp h.nodup).1
      have hlast : (y :: ys).getLast? ≠ some x := fun he => hx (List.mem_of_getLast? he)
      simp only [List.head?_cons, List.getLast?_cons_cons, List.length_cons]
      constructor
      · intro he
        exact absurd he.symm hlast
      · intro hlen
        omega

theorem IsQueue.mem_of_head (h : IsQueue next prev after head tail l) (hx : head = some x) :
    x ∈ l := List.mem_of_head? (h.head_eq ▸ hx)

theorem IsQueue.mem_of_tail (h : IsQueue next prev after head tail l) (hx : tail = some x) :
    x ∈ l := List.mem_of_getLast? (h.tail_eq ▸ hx)

/-- **Appending a node.** -/
theorem IsQueue.pushBack (h : IsQueue next prev after head tail l) (hx : x ∉ l)
    (hnext : next' x = after') (hprev : prev' x = tail)
    (hlast : ∀ t, tail = some t → next' t = some x)
    (hn : ∀ y ∈ l, tail ≠ some y → next' y = next y) (hp : ∀ y ∈ l, prev' y = prev y) :
    IsQueue next' prev' after' (head.or (some x)) (some x) (l ++ [x]) := by
  refine ⟨?_, ?_, by simp, ?_⟩
  · exact List.nodup_append.mpr ⟨h.nodup, by simp, fun y hy z hz he => hx (by
      rw [← List.mem_singleton.mp hz, ← he]
      exact hy)⟩
  · rw [h.head_eq]
    cases l <;> rfl
  · rw [h.tail_eq] at hlast hn hprev
    rcases List.eq_nil_or_concat l with rfl | ⟨m, t, rfl⟩
    · exact ⟨hprev, by simpa using hnext, trivial⟩
    · rw [List.concat_eq_append] at *
      have ht : (m ++ [t]).getLast? = some t := by simp
      have hnd : t ∉ m := fun hm => by
        have := (List.nodup_append.mp h.nodup).2.2 t hm t (by simp)
        exact this rfl
      refine linked_append.mpr ⟨h.linked.setAfter (hlast t ht) (fun y hy => ?_) hp, ?_, ?_, trivial⟩
      · refine hn y (by simp [hy]) ?_
        rw [ht]
        intro he
        exact hnd (Option.some.inj he ▸ hy)
      · rw [hprev, ht]
        rfl
      · simpa using hnext

/-- **Taking the first node off.** -/
theorem IsQueue.popFront (h : IsQueue next prev after head tail (x :: l))
    (hn : ∀ y ∈ l, next' y = next y) (hfirst : ∀ y, l.head? = some y → prev' y = none)
    (hp : ∀ y ∈ l, l.head? ≠ some y → prev' y = prev y) :
    IsQueue next' prev' after l.head? (if l = [] then none else tail) l := by
  obtain ⟨-, -, h3⟩ := h.linked
  cases l with
  | nil => exact isQueue_nil.mpr ⟨rfl, rfl⟩
  | cons y ys =>
    have hnd := (List.nodup_cons.mp h.nodup).2
    have hy : y ∉ ys := (List.nodup_cons.mp hnd).1
    refine ⟨hnd, rfl, ?_, h3.setBefore (hfirst y rfl) (fun z hz => ?_) hn⟩
    · rw [if_neg (by simp), h.tail_eq, List.getLast?_cons_cons]
    · refine hp z (by simp [hz]) ?_
      rw [List.head?_cons]
      intro he
      exact hy (Option.some.inj he ▸ hz)

/-- **Taking a node out, wherever it is.** -/
theorem IsQueue.unlink (h : IsQueue next prev after head tail (l ++ x :: r))
    (hlast : ∀ t, l.getLast? = some t → next' t = r.head?.or after)
    (hn : ∀ y ∈ l ++ r, l.getLast? ≠ some y → next' y = next y)
    (hfirst : ∀ t, r.head? = some t → prev' t = l.getLast?)
    (hp : ∀ y ∈ l ++ r, r.head? ≠ some y → prev' y = prev y) :
    IsQueue next' prev' after (if l = [] then r.head? else head)
      (if r = [] then l.getLast? else tail) (l ++ r) := by
  obtain ⟨h1, -, -, h3⟩ := linked_append.mp h.linked
  have hnd : (l ++ r).Nodup := (List.nodup_middle.mp h.nodup).of_cons
  obtain ⟨hl, hr, hlr⟩ := List.nodup_append.mp hnd
  refine ⟨hnd, ?_, ?_, linked_append.mpr ⟨?_, ?_⟩⟩
  · cases l with
    | nil => simp
    | cons z l => simp [h.head_eq]
  · cases r with
    | nil => simp
    | cons z r => simp [h.tail_eq, List.getLast?_append, List.getLast?_cons]
  · rcases List.eq_nil_or_concat l with rfl | ⟨m, t, rfl⟩
    · trivial
    · rw [List.concat_eq_append] at *
      have ht : (m ++ [t]).getLast? = some t := by simp
      refine h1.setAfter (hlast t ht) (fun y hy => ?_) fun y hy => ?_
      · refine hn y (by simp [hy]) ?_
        rw [ht]
        intro he
        have := (List.nodup_append.mp hl).2.2 y hy t (by simp)
        exact this (Option.some.inj he).symm
      · refine hp y (List.mem_append_left _ hy) fun he => ?_
        exact hlr y hy y (List.mem_of_head? he) rfl
  · cases r with
    | nil => trivial
    | cons z r =>
      have hz : z ∉ r := (List.nodup_cons.mp hr).1
      refine h3.setBefore ?_ (fun y hy => ?_) fun y hy => ?_
      · rw [hfirst z rfl]
        cases l.getLast? <;> rfl
      · refine hp y (by simp [hy]) ?_
        rw [List.head?_cons]
        intro he
        exact hz (Option.some.inj he ▸ hy)
      · refine hn y (List.mem_append_right _ hy) fun he => ?_
        exact hlr y (List.mem_of_getLast? he) y hy rfl

/-! ## Following the links -/

/-- Following `next` from the head visits exactly `l`. -/
theorem IsQueue.isChain (h : IsQueue next prev none head tail l) :
    IsChain (fun o => o.bind next) none head (l.map some) := by
  have hseg : ∀ {l : List ι} {before : Option ι}, Linked next prev before none l →
      Seg (fun o => o.bind next) l.head? (l.map some) none := by
    intro l
    induction l with
    | nil => exact fun _ => rfl
    | cons x xs ih =>
      rintro before ⟨-, h2, h3⟩
      refine ⟨rfl, ?_⟩
      show Seg _ (next x) _ _
      rw [h2, Option.or_none]
      exact ih h3
  refine ⟨?_, by simp⟩
  rw [h.head_eq]
  exact hseg h.linked

/-- A walk whose predecessors are right is linked. -/
theorem linked_of_isChain (hc : IsChain (fun o => o.bind next) none head (l.map some))
    (hfirst : ∀ x, head = some x → prev x = before)
    (hinv : ∀ x ∈ l, ∀ y ∈ l, next x = some y → prev y = some x) :
    head = l.head? ∧ Linked next prev before none l := by
  induction l generalizing head before with
  | nil => exact ⟨isChain_nil.mp hc, trivial⟩
  | cons x xs ih =>
    obtain ⟨rfl, -, hrest⟩ := isChain_cons.mp hc
    have hrest : IsChain (fun o => o.bind next) none (next x) (xs.map some) := hrest
    have hsecond : ∀ y, next x = some y → prev y = some x := by
      intro y hy
      have hmet : OnChain (fun o => o.bind next) none (next x) (some y) := by
        rw [hy]
        exact .head (by simp)
      have hmem : y ∈ xs := by simpa using hrest.onChain_iff.mp hmet
      exact hinv x (by simp) y (List.mem_cons_of_mem x hmem) hy
    obtain ⟨hnext, hlinked⟩ := ih hrest hsecond fun y hy z hz =>
      hinv y (List.mem_cons_of_mem x hy) z (List.mem_cons_of_mem x hz)
    refine ⟨rfl, hfirst x rfl, ?_, hlinked⟩
    rw [hnext, Option.or_none]

/-- Every node but the last one has the one after it for a successor. -/
theorem Linked.successors (h : Linked next prev before after l) :
    l.IsChain fun x y => next x = some y := by
  induction l generalizing before with
  | nil => exact .nil
  | cons x xs ih =>
    obtain ⟨-, hnext, hrest⟩ := h
    cases xs with
    | nil => exact .singleton x
    | cons y ys => exact List.isChain_cons_cons.mpr ⟨hnext, ih hrest⟩

/-- Two queues that share a node begin with the same one. -/
theorem IsQueue.head_eq_of_mem {head' tail' : Option ι}
    (h : IsQueue next prev none head tail l) (h' : IsQueue next prev none head' tail' l')
    (hx : x ∈ l) (hx' : x ∈ l') : head = head' := by
  obtain ⟨a, b, rfl⟩ := List.append_of_mem hx
  obtain ⟨a', b', rfl⟩ := List.append_of_mem hx'
  have hback : (a ++ x :: b).head? = (a' ++ x :: b').head? := by
    -- back along `prev`, from the node they share
    clear hx hx'
    induction a using List.reverseRecOn generalizing a' b b' x with
    | nil =>
      have h1 := (linked_append.mp h.linked).2.1
      have h2 := (linked_append.mp h'.linked).2.1
      rw [h1, List.getLast?_nil, Option.or_none, Option.or_none] at h2
      rw [List.getLast?_eq_none_iff.mp h2.symm]
      rfl
    | append_singleton c z ih =>
      have h1 := (linked_append.mp h.linked).2.1
      have h2 := (linked_append.mp h'.linked).2.1
      rw [h1, List.getLast?_concat, Option.or_none, Option.or_none] at h2
      obtain ⟨c', rfl⟩ := List.getLast?_eq_some_iff.mp h2.symm
      simp only [List.append_assoc, List.singleton_append] at h h' ⊢
      exact ih _ h _ _ h'
  rw [h.head_eq, h'.head_eq, hback]

theorem IsQueue.onChain_iff (h : IsQueue next prev none head tail l) :
    OnChain (fun o => o.bind next) none head (some x) ↔ x ∈ l := by
  rw [h.isChain.onChain_iff, List.mem_map]
  simp

/-- The links determine the nodes. -/
theorem IsQueue.unique {tail' : Option ι} (h : IsQueue next prev none head tail l)
    (h' : IsQueue next prev none head tail' l') : l = l' :=
  List.map_injective_iff.mpr (fun _ _ => Option.some.inj) (h.isChain.unique h'.isChain)

/-- The first node has no predecessor. -/
theorem IsQueue.head_prev (h : IsQueue next prev after head tail l) (hx : head = some x) :
    prev x = none := by
  rw [h.head_eq] at hx
  cases l with
  | nil => cases hx
  | cons y ys =>
    obtain rfl := Option.some.inj hx
    exact h.linked.1

/-- The last node has `after` for a successor. -/
theorem IsQueue.tail_next (h : IsQueue next prev after head tail l) (hx : tail = some x) :
    next x = after := by
  rw [h.tail_eq] at hx
  rcases List.eq_nil_or_concat l with rfl | ⟨m, t, rfl⟩
  · cases hx
  · rw [List.concat_eq_append, List.getLast?_append_of_ne_nil _ (by simp)] at hx
    obtain rfl := Option.some.inj hx
    have h1 := (linked_append.mp (List.concat_eq_append ▸ h.linked)).2
    simpa using h1.2.1

/-- The first node has the second one for a successor. -/
theorem IsQueue.head_next (h : IsQueue next prev after head tail (x :: l)) :
    next x = l.head?.or after := h.linked.2.1

/-- The successor of a node is a node, and has it for a predecessor. -/
theorem IsQueue.next_mem (h : IsQueue next prev none head tail l) (hx : x ∈ l)
    (hn : next x = some y) : y ∈ l ∧ prev y = some x := by
  obtain ⟨a, b, rfl⟩ := List.append_of_mem hx
  obtain ⟨-, -, hnx, hb⟩ := linked_append.mp h.linked
  rw [hnx, Option.or_none] at hn
  cases b with
  | nil => cases hn
  | cons z b =>
    obtain rfl := Option.some.inj hn
    exact ⟨by simp, hb.1⟩

/-- Inside the queue `next` and `prev` are inverse to each other. -/
theorem IsQueue.next_iff_prev (h : IsQueue next prev none head tail l) (hx : x ∈ l) (hy : y ∈ l) :
    next x = some y ↔ prev y = some x := by
  constructor
  · intro hn
    exact (h.next_mem hx hn).2
  · intro hp
    obtain ⟨c, d, he⟩ := List.append_of_mem hy
    have hl := h.linked
    rw [he] at hl
    obtain ⟨h4, h3, -⟩ := linked_append.mp hl
    rw [hp] at h3
    -- `x` is the node just before `y`, and it is there only once
    rcases List.eq_nil_or_concat c with rfl | ⟨c, z, rfl⟩
    · cases h3
    · rw [List.concat_eq_append] at h3 h4
      have hzx : x = z := by simpa using h3
      subst hzx
      obtain ⟨-, h5⟩ := linked_append.mp h4
      simpa using h5.2.1

end OSCompas.Intrusive
