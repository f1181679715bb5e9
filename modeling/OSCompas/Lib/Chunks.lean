import Mathlib.Data.List.Basic
import Mathlib.Tactic.Common

/-!
# Writing chunks to a bounded buffer

A writer that looks for room before each chunk.  Of a chunk it stores the first part by force and
the rest while there is room.  Nothing here names a program.

* `Buffer` — the next place and the writes so far; `Buffer.put`, `Buffer.copy`;
* `Chunk`, `Chunk.store`, `storeAll` — chunks, one and all of them;
* `Fits` — every forced part fits, and the last chunk ends the text or does not have to be reached.

Principal results: `storeAll_within_iff`, `Buffer.Ordered.storeAll` and `fits_iff`.
-/

set_option autoImplicit false

namespace OSCompas.Chunks

variable {α : Type}

/-- The next place in the buffer, and what was written where, the oldest first. -/
structure Buffer (α : Type) where
  ptr : Nat
  writes : List (Nat × α)
  deriving DecidableEq, Repr

/-- Nothing is written. -/
def Buffer.empty : Buffer α := ⟨0, []⟩

/-- `*ptr++ = c;` -/
def Buffer.put (b : Buffer α) (c : α) : Buffer α := ⟨b.ptr + 1, b.writes ++ [(b.ptr, c)]⟩

/-- Several of them. -/
def Buffer.puts (b : Buffer α) (cs : List α) : Buffer α := cs.foldl Buffer.put b

/-- `while (more && ptr < end) *ptr++ = *p++;` -/
def Buffer.copy (bufEnd : Nat) : List α → Buffer α → Buffer α
  | [], b => b
  | c :: p, b => if b.ptr < bufEnd then Buffer.copy bufEnd p (b.put c) else b

/-- What is stored by force, and what while there is room. -/
structure Chunk (α : Type) where
  forced : List α
  rest : List α

def Chunk.length (k : Chunk α) : Nat := k.forced.length + k.rest.length

def Chunk.store (bufEnd : Nat) (k : Chunk α) (b : Buffer α) : Buffer α :=
  (b.puts k.forced).copy bufEnd k.rest

/-- Chunk by chunk, as long as there is room; nothing when the text is left without an end. -/
def storeAll (bufEnd : Nat) (ends : Bool) : List (Chunk α) → Buffer α → Option (Buffer α)
  | [], b => if ends then some b else none
  | k :: ks, b => if bufEnd ≤ b.ptr then some b else storeAll bufEnd ends ks (k.store bufEnd b)

/-- The length of the text without a bound. -/
def total : List (Chunk α) → Nat
  | [] => 0
  | k :: ks => k.length + total ks

variable {bufEnd n : Nat} {ends : Bool} {b b' : Buffer α} {k : Chunk α} {ks : List (Chunk α)}
  {p cs : List α}

@[simp] theorem total_nil : total ([] : List (Chunk α)) = 0 := rfl

@[simp] theorem total_cons (k : Chunk α) (ks : List (Chunk α)) :
    total (k :: ks) = k.length + total ks := rfl

/-! ## Places -/

@[simp] theorem put_ptr (b : Buffer α) (c : α) : (b.put c).ptr = b.ptr + 1 := rfl

@[simp] theorem puts_nil (b : Buffer α) : b.puts [] = b := rfl

@[simp] theorem puts_cons (b : Buffer α) (c : α) (cs : List α) :
    b.puts (c :: cs) = (b.put c).puts cs := rfl

theorem puts_ptr (b : Buffer α) (cs : List α) : (b.puts cs).ptr = b.ptr + cs.length := by
  induction cs generalizing b with
  | nil => rfl
  | cons c cs ih =>
    rw [puts_cons, ih, put_ptr, List.length_cons]
    omega

theorem copy_ptr (bufEnd : Nat) (p : List α) (b : Buffer α) :
    (b.copy bufEnd p).ptr = b.ptr + min p.length (bufEnd - b.ptr) := by
  induction p generalizing b with
  | nil => simp [Buffer.copy]
  | cons c p ih =>
    rw [Buffer.copy]
    by_cases h : b.ptr < bufEnd
    · rw [if_pos h, ih, put_ptr, List.length_cons]
      omega
    · rw [if_neg h, Nat.sub_eq_zero_of_le (by omega)]
      rfl

theorem store_ptr (bufEnd : Nat) (k : Chunk α) (b : Buffer α) : (k.store bufEnd b).ptr =
    b.ptr + k.forced.length + min k.rest.length (bufEnd - (b.ptr + k.forced.length)) := by
  rw [Chunk.store, copy_ptr, puts_ptr]

/-! ## Writes -/

/-- Every place below the next one is written once, in order. -/
def Buffer.Ordered (b : Buffer α) : Prop := b.writes.map Prod.fst = List.range b.ptr

theorem ordered_empty : (Buffer.empty : Buffer α).Ordered := rfl

theorem Buffer.Ordered.put (h : b.Ordered) (c : α) : (b.put c).Ordered := by
  unfold Buffer.Ordered at h ⊢
  simp [Buffer.put, h, List.range_succ]

theorem Buffer.Ordered.puts (h : b.Ordered) (cs : List α) : (b.puts cs).Ordered := by
  induction cs generalizing b with
  | nil => exact h
  | cons c cs ih => exact ih (h.put c)

theorem Buffer.Ordered.copy (h : b.Ordered) (bufEnd : Nat) (p : List α) :
    (b.copy bufEnd p).Ordered := by
  induction p generalizing b with
  | nil => exact h
  | cons c p ih =>
    rw [Buffer.copy]
    split
    · exact ih (h.put c)
    · exact h

/-- **All writes are in order.** -/
theorem Buffer.Ordered.storeAll (h : b.Ordered) (hs : storeAll bufEnd ends ks b = some b') :
    b'.Ordered := by
  induction ks generalizing b with
  | nil =>
    rw [Chunks.storeAll] at hs
    split at hs
    · exact Option.some.inj hs ▸ h
    · cases hs
  | cons k ks ih =>
    rw [Chunks.storeAll] at hs
    split at hs
    · exact Option.some.inj hs ▸ h
    · exact ih ((h.puts k.forced).copy bufEnd k.rest) hs

/-- The places written are those below the next one. -/
theorem Buffer.Ordered.lt_iff (h : b.Ordered) (size : Nat) :
    (∀ w ∈ b.writes, w.1 < size) ↔ b.ptr ≤ size := by
  have hmem : ∀ i, (∃ w ∈ b.writes, w.1 = i) ↔ i < b.ptr := by
    intro i
    rw [← List.mem_range, ← h, List.mem_map]
  constructor
  · intro hall
    by_contra hlt
    obtain ⟨w, hw, hi⟩ := (hmem size).mpr (by omega)
    have hsize := hall w hw
    omega
  · intro hle w hw
    have hlt := (hmem w.1).mp ⟨w, hw, rfl⟩
    omega

/-! ## What fits -/

/-- From `n` on: every forced part that is begun with room fits, and the end is reached if there is
still room. -/
def Fits (bufEnd : Nat) (ends : Bool) : Nat → List (Chunk α) → Prop
  | _, [] => ends = true
  | n, k :: ks => bufEnd ≤ n ∨ n + k.forced.length ≤ bufEnd ∧ Fits bufEnd ends (n + k.length) ks

/-- Nothing more than the end matters when the buffer is full. -/
theorem storeAll_full (h : bufEnd ≤ b.ptr) (hs : storeAll bufEnd ends ks b = some b') : b' = b := by
  cases ks with
  | nil =>
    rw [storeAll] at hs
    split at hs
    · exact (Option.some.inj hs).symm
    · cases hs
  | cons k ks =>
    rw [storeAll, if_pos h] at hs
    exact (Option.some.inj hs).symm

/-- The next place is in the buffer. -/
def Within (bufEnd : Nat) (r : Option (Buffer α)) : Prop := ∃ b, r = some b ∧ b.ptr ≤ bufEnd

/-- **The writer ends in its buffer** just if the chunks fit. -/
theorem storeAll_within_iff (ends : Bool) (ks : List (Chunk α)) (hn : b.ptr = min n bufEnd) :
    Within bufEnd (storeAll bufEnd ends ks b) ↔ Fits bufEnd ends n ks := by
  induction ks generalizing b n with
  | nil =>
    rw [storeAll, Fits]
    cases ends with
    | true => exact ⟨fun _ => rfl, fun _ => ⟨b, rfl, by omega⟩⟩
    | false => simp [Within]
  | cons k ks ih =>
    rw [storeAll, Fits]
    by_cases hfull : bufEnd ≤ b.ptr
    · rw [if_pos hfull]
      exact ⟨fun _ => .inl (by omega), fun _ => ⟨b, rfl, by omega⟩⟩
    · rw [if_neg hfull, or_iff_right (show ¬ bufEnd ≤ n by omega)]
      by_cases hfits : n + k.forced.length ≤ bufEnd
      · have hptr : (k.store bufEnd b).ptr = min (n + k.length) bufEnd := by
          rw [store_ptr, Chunk.length]
          omega
        rw [ih hptr]
        exact ⟨fun h => ⟨hfits, h⟩, fun h => h.2⟩
      · have hover : bufEnd < (k.store bufEnd b).ptr := by
          rw [store_ptr]
          omega
        refine ⟨?_, fun h => absurd h.1 hfits⟩
        rintro ⟨b', hs, hle⟩
        rw [storeAll_full (by omega) hs] at hle
        omega

/-- Every forced part that is begun with room fits. -/
def NoOverrun (bufEnd n : Nat) (ks : List (Chunk α)) : Prop :=
  ∀ i : Fin ks.length, n + total (ks.take i) < bufEnd →
    n + total (ks.take i) + ks[i].forced.length ≤ bufEnd

/-- The end is reached, or the buffer is full before the last chunk. -/
def Ends (bufEnd : Nat) (ends : Bool) (n : Nat) (ks : List (Chunk α)) : Prop :=
  ends = true ∨ ks ≠ [] ∧ bufEnd ≤ n + total ks.dropLast

theorem noOverrun_cons (h : n < bufEnd) : NoOverrun bufEnd n (k :: ks) ↔
    n + k.forced.length ≤ bufEnd ∧ NoOverrun bufEnd (n + k.length) ks := by
  unfold NoOverrun
  refine Fin.forall_fin_succ.trans (and_congr ?_ (forall_congr' fun i => ?_))
  · simp [h]
  · simp [Nat.add_assoc]

theorem ends_cons (h : n < bufEnd) : Ends bufEnd ends n (k :: ks) ↔
    Ends bufEnd ends (n + k.length) ks := by
  unfold Ends
  cases ks with
  | nil =>
    have hroom : ¬ bufEnd ≤ n := by omega
    simp [hroom]
  | cons k' ks => simp [Nat.add_assoc]

/-- **Chunks fit** if no forced part overruns, and the text has an end or the buffer is full in
time. -/
theorem fits_iff : Fits bufEnd ends n ks ↔ NoOverrun bufEnd n ks ∧ Ends bufEnd ends n ks := by
  induction ks generalizing n with
  | nil => simp [Fits, NoOverrun, Ends]
  | cons k ks ih =>
    rw [Fits]
    by_cases hfull : bufEnd ≤ n
    · refine ⟨fun _ => ⟨?_, .inr ⟨by simp, by omega⟩⟩, fun _ => .inl hfull⟩
      intro i hroom
      omega
    · rw [or_iff_right hfull, ih, noOverrun_cons (by omega), ends_cons (by omega), and_assoc]

end OSCompas.Chunks
