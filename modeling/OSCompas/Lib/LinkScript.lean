import Mathlib.Logic.Function.Basic
import Mathlib.Algebra.Ring.Nat

/-!
# Link scripts

The part of the GNU `ld` script language that moves the location counter: output sections filled
with input sections, assignments to `.` and symbols defined from it.  The names of input sections,
output sections and symbols are parameters.

* `Stmt`, `Command` — the script;
* `layout` — the addresses it assigns, for input sections of given sizes and alignments.

All output sections go to one memory region, one after the other, so the next free address of the
region and the location counter are the same number.

Principal results: `le_alignTo`, `alignTo_of_mod` and `place_le` (filling a section never moves the
counter back).
-/

set_option autoImplicit false

namespace OSCompas.LinkScript

/-- An input section of an object file: `size` bytes at a multiple of `2 ^ power`. -/
structure Input where
  size : Nat
  power : Nat
  deriving DecidableEq, Repr

/-- `ALIGN(a)` at the address `x`. -/
def alignTo (a x : Nat) : Nat := (x + (a - 1)) / a * a

/-- A statement inside an output section. -/
inductive Stmt (I S : Type) where
  /-- `*(i i.*)` -/
  | input (i : I)
  /-- `. = ALIGN(a);` -/
  | align (a : Nat)
  /-- `. += k;` -/
  | skip (k : Nat)
  /-- `s = . + k;` -/
  | define (s : S) (k : Nat)

/-- A statement at the top level of `SECTIONS`. -/
inductive Command (I O S : Type) where
  /-- `. = x;` -/
  | goto (x : Nat)
  /-- `. = ALIGN(a);` -/
  | align (a : Nat)
  /-- `s = .;` -/
  | define (s : S)
  /-- `o : { body } > RAM` -/
  | output (o : O) (body : List (Stmt I S))

/-- Start and end of an output section. -/
structure Extent where
  start : Nat
  stop : Nat
  deriving DecidableEq, Repr

/-- What the linker has assigned. -/
structure Image (O S : Type) where
  dot : Nat
  sections : O → Extent
  symbols : S → Nat

section Script

variable {I O S : Type} [DecidableEq O] [DecidableEq S] (inputs : I → List Input)

/-- Put input sections one behind the other, each at its alignment. -/
def place (x : Nat) (l : List Input) : Nat :=
  l.foldl (fun x i => alignTo (2 ^ i.power) x + i.size) x

/-- The alignment of an output section is the largest one in it. -/
def bodyAlign (body : List (Stmt I S)) : Nat :=
  2 ^ (body.flatMap fun
    | .input i => (inputs i).map Input.power
    | _ => []).foldl max 0

def Stmt.exec (s : Nat × (S → Nat)) : Stmt I S → Nat × (S → Nat)
  | .input i => (place s.1 (inputs i), s.2)
  | .align a => (alignTo a s.1, s.2)
  | .skip k => (s.1 + k, s.2)
  | .define y k => (s.1, Function.update s.2 y (s.1 + k))

def Command.exec (l : Image O S) : Command I O S → Image O S
  | .goto x => { l with dot := x }
  | .align a => { l with dot := alignTo a l.dot }
  | .define y => { l with symbols := Function.update l.symbols y l.dot }
  | .output o body =>
    let start := alignTo (bodyAlign inputs body) l.dot
    let r := body.foldl (Stmt.exec inputs) (start, l.symbols)
    ⟨r.1, Function.update l.sections o ⟨start, r.1⟩, r.2⟩

/-- The addresses a script assigns. -/
def layout (script : List (Command I O S)) : Image O S :=
  script.foldl (Command.exec inputs) ⟨0, fun _ => ⟨0, 0⟩, fun _ => 0⟩

end Script

/-! ## The location counter -/

section Counter

variable {a x : Nat}

theorem le_alignTo (ha : 0 < a) : x ≤ alignTo a x := by
  unfold alignTo
  have h := Nat.div_add_mod (x + (a - 1)) a
  have hlt := Nat.mod_lt (x + (a - 1)) ha
  rw [Nat.mul_comm] at h
  omega

theorem alignTo_mod (a x : Nat) : alignTo a x % a = 0 := Nat.mul_mod_left _ _

/-- Aligning an aligned address does nothing. -/
theorem alignTo_of_mod (ha : 0 < a) (h : x % a = 0) : alignTo a x = x := by
  unfold alignTo
  obtain ⟨k, rfl⟩ := Nat.dvd_of_mod_eq_zero h
  rw [Nat.mul_add_div ha, Nat.div_eq_of_lt (by omega), Nat.add_zero, Nat.mul_comm]

/-- Filling a section never moves the counter back. -/
theorem place_le (x : Nat) (l : List Input) : x ≤ place x l := by
  induction l generalizing x with
  | nil => exact Nat.le_refl _
  | cons i l ih =>
    have h := le_alignTo (x := x) (Nat.two_pow_pos i.power)
    have hrest := ih (alignTo (2 ^ i.power) x + i.size)
    show x ≤ place (alignTo (2 ^ i.power) x + i.size) l
    omega

end Counter

end OSCompas.LinkScript
