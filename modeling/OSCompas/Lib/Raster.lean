import OSCompas.Lib.Turns
import Mathlib.Data.List.Induction

/-!
# A memory written through a window

A memory of rows and columns behind a cursor: each write goes to the cell under the cursor, which
then moves along its row, from the last column of the window to the first of the next row, and from
the last row to the first.

* `Window`, `Window.put` — the memory, the window and the cursor, and a write;
* `Window.At k` — the cursor is where `k` writes from the window's first cell leave it.

Principal result: `Window.foldl_put` — as many writes as the window has cells fill it row by row and
bring the cursor back.
-/

set_option autoImplicit false

namespace OSCompas.Raster

variable {α : Type}

/-- A memory with a window and a cursor in it. -/
structure Window (α : Type) where
  ram : Nat → Nat → α
  rowStart : Nat
  rowEnd : Nat
  colStart : Nat
  colEnd : Nat
  row : Nat
  col : Nat

namespace Window

/-- Write a cell and move on. -/
def put (r : Window α) (v : α) : Window α :=
  { r with
    ram := fun i j => if i = r.row ∧ j = r.col then v else r.ram i j
    col := if r.col = r.colEnd then r.colStart else r.col + 1
    row := if r.col = r.colEnd then if r.row = r.rowEnd then r.rowStart else r.row + 1 else r.row }

/-- The columns of the window. -/
def width (r : Window α) : Nat := r.colEnd + 1 - r.colStart

/-- The rows of the window. -/
def height (r : Window α) : Nat := r.rowEnd + 1 - r.rowStart

/-- Row `i` and column `j` are in the window. -/
def Inside (r : Window α) (i j : Nat) : Prop :=
  r.rowStart ≤ i ∧ i ≤ r.rowEnd ∧ r.colStart ≤ j ∧ j ≤ r.colEnd

/-- The window is not empty, and the cursor is where `k` writes from its first cell leave it. -/
structure At (r : Window α) (k : Nat) : Prop where
  rows : r.rowStart ≤ r.rowEnd
  cols : r.colStart ≤ r.colEnd
  row : r.row = r.rowStart + k / r.width % r.height
  col : r.col = r.colStart + k % r.width

variable {r : Window α} {k i j : Nat} {v : α}

@[simp] theorem put_width : (r.put v).width = r.width := rfl

@[simp] theorem put_height : (r.put v).height = r.height := rfl

theorem put_row (r : Window α) (v : α) : (r.put v).row =
    if r.col = r.colEnd then if r.row = r.rowEnd then r.rowStart else r.row + 1 else r.row := rfl

theorem put_col (r : Window α) (v : α) :
    (r.put v).col = if r.col = r.colEnd then r.colStart else r.col + 1 := rfl

theorem At.width_pos (h : r.At k) : 0 < r.width := by
  have := h.cols
  unfold width
  omega

theorem At.height_pos (h : r.At k) : 0 < r.height := by
  have := h.rows
  unfold height
  omega

theorem At.home (hr : r.rowStart ≤ r.rowEnd) (hc : r.colStart ≤ r.colEnd)
    (hrow : r.row = r.rowStart) (hcol : r.col = r.colStart) : r.At 0 :=
  ⟨hr, hc, by rw [hrow, Nat.zero_div, Nat.zero_mod, Nat.add_zero],
    by rw [hcol, Nat.zero_mod, Nat.add_zero]⟩

/-- A write moves the cursor one place on. -/
theorem At.put (h : r.At k) : (r.put v).At (k + 1) := by
  obtain ⟨hr, hc, hrow, hcol⟩ := h
  have hw : 0 < r.width := At.width_pos ⟨hr, hc, hrow, hcol⟩
  have hh : 0 < r.height := At.height_pos ⟨hr, hc, hrow, hcol⟩
  have hwidth : r.colEnd + 1 = r.colStart + r.width := by unfold width; omega
  have hheight : r.rowEnd + 1 = r.rowStart + r.height := by unfold height; omega
  refine ⟨hr, hc, ?_, ?_⟩
  · rw [put_width, put_height, put_row]
    show _ = r.rowStart + _
    obtain ⟨hlt, hdiv, -⟩ | ⟨hlast, hdiv, -⟩ := Turns.clock_succ hw k
    · rw [if_neg (by omega), hdiv, hrow]
    · rw [if_pos (by omega), hdiv]
      obtain ⟨hlt, -, hmod⟩ | ⟨hbottom, -, hmod⟩ := Turns.clock_succ hh (k / r.width)
      · rw [if_neg (by omega), hmod]
        omega
      · rw [if_pos (by omega), hmod]
        rfl
  · rw [put_width, put_col]
    show _ = r.colStart + _
    obtain ⟨hlt, -, hmod⟩ | ⟨hlast, -, hmod⟩ := Turns.clock_succ hw k
    · rw [if_neg (by omega), hmod]
      omega
    · rw [if_pos (by omega), hmod]
      rfl

/-- The cell that write `k` goes to, among those of the window. -/
theorem At.cell (h : r.At k) (hk : k < r.height * r.width) (hin : r.Inside i j) :
    i = r.row ∧ j = r.col ↔ (i - r.rowStart) * r.width + (j - r.colStart) = k := by
  obtain ⟨hi, hi', hj, hj'⟩ := hin
  have hlt : j - r.colStart < r.width := by unfold width; omega
  have hrow := h.row
  have hcol := h.col
  rw [Nat.mod_eq_of_lt (Nat.div_lt_of_lt_mul (Nat.mul_comm _ _ ▸ hk))] at hrow
  have huniq : k / r.width = i - r.rowStart ∧ k % r.width = j - r.colStart ↔
      j - r.colStart + r.width * (i - r.rowStart) = k ∧ j - r.colStart < r.width :=
    Nat.div_mod_unique h.width_pos
  rw [Nat.mul_comm, Nat.add_comm]
  constructor
  · rintro ⟨rfl, rfl⟩
    exact (huniq.mp ⟨by omega, by omega⟩).1
  · intro hk
    obtain ⟨h1, h2⟩ := huniq.mpr ⟨hk, hlt⟩
    omega

/-- What a list of writes leaves of the window. -/
theorem foldl_put_frame (r : Window α) (l : List α) :
    (l.foldl put r).rowStart = r.rowStart ∧ (l.foldl put r).rowEnd = r.rowEnd ∧
      (l.foldl put r).colStart = r.colStart ∧ (l.foldl put r).colEnd = r.colEnd := by
  induction l generalizing r with
  | nil => exact ⟨rfl, rfl, rfl, rfl⟩
  | cons v l ih => exact ih (r.put v)

theorem At.foldl (h : r.At k) (l : List α) : (l.foldl Window.put r).At (k + l.length) := by
  induction l generalizing r k with
  | nil => exact h
  | cons v l ih =>
    rw [List.length_cons, Nat.add_comm l.length, ← Nat.add_assoc]
    exact ih h.put

/-- **Writes from the first cell on go to the window row by row.** -/
theorem ram_foldl_put (h : r.At 0) {l : List α} (hl : l.length ≤ r.height * r.width) (i j : Nat)
    (hin : r.Inside i j) : (l.foldl put r).ram i j =
      l[(i - r.rowStart) * r.width + (j - r.colStart)]?.getD (r.ram i j) := by
  induction l using List.reverseRecOn with
  | nil => rfl
  | append_singleton l v ih =>
    rw [List.length_append, List.length_singleton] at hl
    have hat := h.foldl l
    rw [Nat.zero_add] at hat
    obtain ⟨h1, h2, h3, h4⟩ := foldl_put_frame r l
    have hw : (l.foldl put r).width = r.width := by unfold width; rw [h3, h4]
    have hh : (l.foldl put r).height = r.height := by unfold height; rw [h1, h2]
    have hcell := hat.cell (i := i) (j := j) (by rw [hw, hh]; omega)
      (by unfold Inside; rw [h1, h2, h3, h4]; exact hin)
    rw [h1, h3, hw] at hcell
    rw [List.foldl_append, List.foldl_cons, List.foldl_nil]
    simp only [put, hcell]
    split
    · rename_i he
      rw [he, List.getElem?_append_right (Nat.le_refl _), Nat.sub_self]
      rfl
    · rename_i hne
      rw [ih (by omega)]
      obtain hlt | hgt := Nat.lt_or_gt_of_ne hne
      · rw [List.getElem?_append_left hlt]
      · rw [List.getElem?_eq_none (Nat.le_of_lt hgt), List.getElem?_eq_none]
        rw [List.length_append, List.length_singleton]
        omega

/-- **As many writes as the window has cells fill it and bring the cursor back.** -/
theorem foldl_put (h : r.At 0) {l : List α} (hl : l.length = r.height * r.width) :
    (l.foldl put r).At 0 ∧
      ∀ i j, r.Inside i j → some ((l.foldl put r).ram i j) =
        l[(i - r.rowStart) * r.width + (j - r.colStart)]? := by
  have hat := h.foldl l
  obtain ⟨h1, h2, h3, h4⟩ := foldl_put_frame r l
  have hw : (l.foldl put r).width = r.width := by unfold width; rw [h3, h4]
  have hh : (l.foldl put r).height = r.height := by unfold height; rw [h1, h2]
  refine ⟨⟨hat.rows, hat.cols, ?_, ?_⟩, ?_⟩
  · rw [hat.row, hw, hh, hl, Nat.zero_add, Nat.mul_div_cancel _ h.width_pos, Nat.mod_self,
      Nat.zero_div, Nat.zero_mod]
  · rw [hat.col, hw, hl, Nat.zero_add, Nat.mul_mod_left, Nat.zero_mod]
  · intro i j hin
    rw [ram_foldl_put h (Nat.le_of_eq hl) i j hin]
    obtain ⟨hi, hi', hj, hj'⟩ := hin
    have hlt : (i - r.rowStart) * r.width + (j - r.colStart) < l.length := by
      have hrow : i - r.rowStart + 1 ≤ r.height := by unfold height; omega
      have hcol : j - r.colStart < r.width := by unfold width; omega
      have := Nat.mul_le_mul_right r.width hrow
      rw [Nat.add_mul, Nat.one_mul] at this
      omega
    rw [List.getElem?_eq_getElem hlt]
    rfl

end Window

end OSCompas.Raster
