import Mathlib.Data.List.Nodup

/-!
# Singly linked chains

An intrusive singly linked list is a successor function `next` on node names, a start and a
sentinel `nil`.  The node type is arbitrary.

* `Seg next p l q` — walking from `p` along `next` visits exactly `l` and arrives at `q`;
* `IsChain next nil p l` — the same with `q = nil` and no node called `nil`;
* `OnChain next nil p x` — `x` is met by walking from `p` before the first `nil`.

Principal results: `IsChain.nodup` (a walk that arrives at `nil` visits no node twice),
`IsChain.unique` and `IsChain.onChain_iff`.
-/

set_option autoImplicit false

namespace OSCompas.Chain

variable {α : Type}

/-- Walking from `p` along `next` visits `l` and arrives at `q`. -/
def Seg (next : α → α) : α → List α → α → Prop
  | p, [], q => p = q
  | p, x :: xs, q => p = x ∧ Seg next (next x) xs q

/-- A whole list: the walk ends at the sentinel and no node is the sentinel. -/
structure IsChain (next : α → α) (nil p : α) (l : List α) : Prop where
  seg : Seg next p l nil
  nil_notMem : nil ∉ l

/-- `x` is met by walking from `p` before the first `nil`. -/
inductive OnChain (next : α → α) (nil p : α) : α → Prop where
  | head : p ≠ nil → OnChain next nil p p
  | step {x : α} : OnChain next nil p x → next x ≠ nil → OnChain next nil p (next x)

variable {next : α → α} {nil p q x y : α} {l l' pre post : List α}

/-! ## Segments -/

@[simp] theorem seg_nil : Seg next p [] q ↔ p = q := Iff.rfl

@[simp] theorem seg_cons : Seg next p (x :: l) q ↔ p = x ∧ Seg next (next x) l q := Iff.rfl

theorem seg_append : Seg next p (l ++ l') q ↔ ∃ r, Seg next p l r ∧ Seg next r l' q := by
  induction l generalizing p with
  | nil => simp
  | cons x xs ih => simp only [List.cons_append, seg_cons, ih]; tauto

/-! ## Chains -/

theorem isChain_nil : IsChain next nil p [] ↔ p = nil :=
  ⟨fun h => h.seg, fun h => ⟨h, by simp⟩⟩

theorem isChain_cons :
    IsChain next nil p (x :: l) ↔ p = x ∧ x ≠ nil ∧ IsChain next nil (next x) l := by
  constructor
  · rintro ⟨⟨rfl, hs⟩, hn⟩
    simp only [List.mem_cons, not_or] at hn
    exact ⟨rfl, Ne.symm hn.1, hs, hn.2⟩
  · rintro ⟨rfl, hx, hs, hn⟩
    exact ⟨⟨rfl, hs⟩, by simp [hn, Ne.symm hx]⟩

/-- The nodes of a chain are determined by its start. -/
theorem IsChain.unique (h : IsChain next nil p l) (h' : IsChain next nil p l') : l = l' := by
  induction l generalizing p l' with
  | nil =>
    cases l' with
    | nil => rfl
    | cons y ys => exact absurd ((isChain_cons.mp h').1.symm.trans h.seg) (isChain_cons.mp h').2.1
  | cons x xs ih =>
    obtain ⟨rfl, hx, hs⟩ := isChain_cons.mp h
    cases l' with
    | nil => exact absurd h'.seg hx
    | cons y ys =>
      obtain ⟨rfl, -, hs'⟩ := isChain_cons.mp h'
      rw [ih hs hs']

/-- The part of a chain from one of its nodes on is a chain. -/
theorem IsChain.drop (h : IsChain next nil p (pre ++ x :: post)) :
    IsChain next nil x (x :: post) := by
  obtain ⟨r, -, rfl, h2⟩ := seg_append.mp h.seg
  exact ⟨⟨rfl, h2⟩, fun hm => h.nil_notMem (List.mem_append_right _ hm)⟩

/-- **A walk that arrives at the sentinel visits no node twice.** -/
theorem IsChain.nodup (h : IsChain next nil p l) : l.Nodup := by
  induction l generalizing p with
  | nil => exact List.nodup_nil
  | cons x xs ih =>
    obtain ⟨rfl, hx, hs⟩ := isChain_cons.mp h
    refine List.nodup_cons.mpr ⟨fun hm => ?_, ih hs⟩
    -- a second visit would make the chain from `p` a proper part of itself
    obtain ⟨a, b, rfl⟩ := List.append_of_mem hm
    have heq := h.unique hs.drop
    have hlen := congrArg List.length heq
    simp only [List.length_cons, List.length_append] at hlen
    omega

theorem OnChain.of_next (hp : p ≠ nil) (h : OnChain next nil (next p) x) :
    OnChain next nil p x := by
  induction h with
  | head hn => exact .step (.head hp) hn
  | step _ hn ih => exact .step ih hn

/-- Being met on the walk is being one of the nodes. -/
theorem IsChain.onChain_iff (h : IsChain next nil p l) : OnChain next nil p x ↔ x ∈ l := by
  constructor
  · intro hx
    induction hx with
    | head hp =>
      cases l with
      | nil => exact absurd h.seg hp
      | cons y ys => simp [(isChain_cons.mp h).1]
    | step _ hn ih =>
      obtain ⟨a, b, rfl⟩ := List.append_of_mem ih
      obtain ⟨-, -, ht⟩ := isChain_cons.mp h.drop
      cases b with
      | nil => exact absurd ht.seg hn
      | cons z zs => simp [(isChain_cons.mp ht).1]
  · intro hx
    induction l generalizing p with
    | nil => cases hx
    | cons y ys ih =>
      obtain ⟨rfl, hy, hs⟩ := isChain_cons.mp h
      rcases List.mem_cons.mp hx with rfl | hx
      · exact .head hy
      · exact (ih hs hx).of_next hy

end OSCompas.Chain
