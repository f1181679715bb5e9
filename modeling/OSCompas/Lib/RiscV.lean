import OSCompas.Lib.ByteMemory
import Mathlib.Logic.Function.Basic

/-!
# A part of RV64

Registers and byte memory, and the instructions that a trap entry is made of.  Nothing here names a
program; a called function is a parameter.

* `Machine` — the registers `x0` to `x31` and the memory; `x0` is always zero;
* `Instr`, `exec` — instructions, and a listing up to `sret`;
* `saves`, `loads` — rows of stores and loads at displacements from one register.

Principal results: `run_saves` and `run_loads`.
-/

set_option autoImplicit false

namespace OSCompas.RiscV

open ByteMemory Function

/-- The size of the address space. -/
abbrev W : Nat := 2 ^ 64

abbrev Reg := Fin 32

instance neZeroRegs : NeZero 32 := ⟨by decide⟩

/-- The return address. -/
abbrev ra : Reg := 1

/-- The stack pointer. -/
abbrev sp : Reg := 2

/-- The first argument. -/
abbrev a0 : Reg := 10

structure Machine where
  x : Reg → UInt64
  mem : Mem

namespace Machine

def get (m : Machine) (r : Reg) : UInt64 := if r = 0 then 0 else m.x r

def set (m : Machine) (r : Reg) (v : UInt64) : Machine := { m with x := update m.x r v }

/-- The double word at `a`. -/
def read (m : Machine) (a : UInt64) : UInt64 := UInt64.ofNat (load W m.mem a.toNat 8)

def write (m : Machine) (a v : UInt64) : Machine :=
  { m with mem := store W m.mem a.toNat 8 v.toNat }

end Machine

/-- Instructions; an immediate is given as it is sign-extended. -/
inductive Instr where
  | addi (rd rs : Reg) (imm : UInt64)
  | mv (rd rs : Reg)
  | sd (r : Reg) (d : UInt64) (b : Reg)
  | ld (r : Reg) (d : UInt64) (b : Reg)
  | call
  | sret
  deriving DecidableEq, Repr

/-- An instruction of straight-line code. -/
def Instr.step (m : Machine) : Instr → Machine
  | .addi rd rs imm => m.set rd (m.get rs + imm)
  | .mv rd rs => m.set rd (m.get rs)
  | .sd r d b => m.write (m.get b + d) (m.get r)
  | .ld r d b => m.set r (m.read (m.get b + d))
  | .call => m
  | .sret => m

/-- A listing up to `sret`; a call leaves `link` in `ra` and runs the called function. -/
def exec (function : Machine → Machine) (link : UInt64) : List Instr → Machine → Machine
  | [], m => m
  | .sret :: _, m => m
  | .call :: is, m => exec function link is (function (m.set ra link))
  | i :: is, m => exec function link is (i.step m)

/-- Straight-line code. -/
def run (is : List Instr) (m : Machine) : Machine := is.foldl Instr.step m

variable {function : Machine → Machine} {link : UInt64} {m m' : Machine} {r b : Reg}
  {a d e v : UInt64}

/-! ## Listings -/

/-- The instruction neither calls nor returns. -/
def Instr.straight : Instr → Bool
  | .call => false
  | .sret => false
  | _ => true

/-- **A block of straight-line code runs as one step.** -/
theorem exec_block (is rest : List Instr) (hs : is.all Instr.straight = true) (m : Machine) :
    exec function link (is ++ rest) m = exec function link rest (run is m) := by
  induction is generalizing m with
  | nil => rfl
  | cons i is ih =>
    rw [List.all_cons, Bool.and_eq_true] at hs
    cases i with
    | call => cases hs.1
    | sret => cases hs.1
    | _ => exact ih hs.2 _

/-! ## Registers and memory -/

@[simp] theorem get_zero (m : Machine) : m.get 0 = 0 := rfl

theorem get_set (m : Machine) (v : UInt64) (hr : r ≠ 0) : (m.set r v).get r = v := by
  simp [Machine.get, Machine.set, hr]

theorem get_set_of_ne {r' : Reg} (h : r' ≠ r) : (m.set r v).get r' = m.get r' := by
  simp [Machine.get, Machine.set, h]

@[simp] theorem set_mem (m : Machine) (r : Reg) (v : UInt64) : (m.set r v).mem = m.mem := rfl

@[simp] theorem set_read (m : Machine) (r : Reg) (v a : UInt64) :
    (m.set r v).read a = m.read a := rfl

theorem toNat_add (a d : UInt64) : (a + d).toNat = (a.toNat + d.toNat) % W := UInt64.toNat_add a d

theorem read_write (m : Machine) (a v : UInt64) : (m.write a v).read a = v := by
  unfold Machine.read Machine.write
  dsimp only
  rw [load_store_around a.toNat_lt (by decide),
    Nat.mod_eq_of_lt (show v.toNat < 256 ^ 8 from v.toNat_lt),
    UInt64.ofNat_toNat]

/-- A word beside the one that was written. -/
theorem read_write_apart (hd : d.toNat + 8 ≤ W) (he : e.toNat + 8 ≤ W)
    (h : e.toNat + 8 ≤ d.toNat ∨ d.toNat + 8 ≤ e.toNat) :
    (m.write (a + d) v).read (a + e) = m.read (a + e) := by
  unfold Machine.read Machine.write
  dsimp only
  rw [toNat_add, toNat_add, load_store_apart a.toNat_lt hd he h]

theorem write_agreeOff {n : Nat} (hd : d.toNat + 8 ≤ n) (hn : n ≤ W) :
    AgreeOff W m.mem (m.write (a + d) v).mem a.toNat n := by
  show AgreeOff W m.mem (ByteMemory.store W m.mem (a + d).toNat 8 v.toNat) a.toNat n
  rw [toNat_add]
  exact agreeOff_store a.toNat_lt hd hn

/-- A word where the memories agree. -/
theorem read_of_mem (h : ∀ i < 8, m'.mem ((a.toNat + i) % W) = m.mem ((a.toNat + i) % W)) :
    m'.read a = m.read a := by
  unfold Machine.read
  rw [load_eq_of_bytes h]

/-! ## Rows of stores and loads -/

/-- Registers with displacements. -/
abbrev Slots := List (Reg × UInt64)

/-- Store the registers at their displacements from `b`. -/
def saves (b : Reg) (l : Slots) : List Instr := l.map fun p => .sd p.1 p.2 b

/-- Load the registers from their displacements from `b`. -/
def loads (b : Reg) (l : Slots) : List Instr := l.map fun p => .ld p.1 p.2 b

/-- The slots lie in the `n` bytes from the base on, and no two meet. -/
def Slots.Fit (l : Slots) (n : Nat) : Prop :=
  (∀ p ∈ l, p.2.toNat + 8 ≤ n) ∧
    l.Pairwise fun p q => p.2.toNat + 8 ≤ q.2.toNat ∨ q.2.toNat + 8 ≤ p.2.toNat

instance (l : Slots) (n : Nat) : Decidable (l.Fit n) :=
  @instDecidableAnd _ _ (List.decidableBAll _ l) inferInstance

theorem run_saves_get (l : Slots) (m : Machine) (r : Reg) : (run (saves b l) m).get r = m.get r := by
  induction l generalizing m with
  | nil => rfl
  | cons p l ih => exact ih _

theorem run_saves_mem {n : Nat} (hn : n ≤ W) (l : Slots) (hl : ∀ p ∈ l, p.2.toNat + 8 ≤ n)
    (m : Machine) : AgreeOff W m.mem (run (saves b l) m).mem (m.get b).toNat n := by
  induction l generalizing m with
  | nil => exact .refl _ _ _ _
  | cons p l ih =>
    have hfirst : AgreeOff W m.mem (m.write (m.get b + p.2) (m.get p.1)).mem (m.get b).toNat n :=
      write_agreeOff (hl p List.mem_cons_self) hn
    refine hfirst.trans ?_
    exact ih (fun q hq => hl q (List.mem_cons_of_mem _ hq)) (m.write (m.get b + p.2) (m.get p.1))

/-- A word that the row does not meet. -/
theorem run_saves_read (l : Slots) (m : Machine) (he : e.toNat + 8 ≤ W)
    (hl : ∀ p ∈ l, p.2.toNat + 8 ≤ W ∧ (e.toNat + 8 ≤ p.2.toNat ∨ p.2.toNat + 8 ≤ e.toNat)) :
    (run (saves b l) m).read (m.get b + e) = m.read (m.get b + e) := by
  induction l generalizing m with
  | nil => rfl
  | cons p l ih =>
    obtain ⟨hp, hpe⟩ := hl p List.mem_cons_self
    have hrest := ih (m.write (m.get b + p.2) (m.get p.1)) fun q hq =>
      hl q (List.mem_cons_of_mem _ hq)
    exact hrest.trans (read_write_apart hp he hpe)

/-- **A row of stores** puts every register into its slot. -/
theorem run_saves {n : Nat} (hn : n ≤ W) (l : Slots) (hl : l.Fit n) (m : Machine) :
    ∀ p ∈ l, (run (saves b l) m).read (m.get b + p.2) = m.get p.1 := by
  induction l generalizing m with
  | nil => exact fun p hp => nomatch hp
  | cons q l ih =>
    obtain ⟨hfit, hapart⟩ := hl
    obtain ⟨hq, hrest⟩ := List.pairwise_cons.mp hapart
    intro p hp
    rcases List.mem_cons.mp hp with rfl | hp
    · have hkept := run_saves_read (b := b) (e := p.2) l (m.write (m.get b + p.2) (m.get p.1))
        (Nat.le_trans (hfit p List.mem_cons_self) hn) fun r hr =>
          ⟨Nat.le_trans (hfit r (List.mem_cons_of_mem _ hr)) hn, hq r hr⟩
      exact hkept.trans (read_write _ _ _)
    · exact ih ⟨fun r hr => hfit r (List.mem_cons_of_mem _ hr), hrest⟩
        (m.write (m.get b + q.2) (m.get q.1)) p hp

/-- **A row of loads** gives every register of the row its value, if the slots hold the values and
the base register holds its own all along. -/
theorem run_loads (value : Reg → UInt64) (l : Slots) (m : Machine) (hb : m.get b = value b)
    (hl : ∀ p ∈ l, p.1 ≠ 0 ∧ m.read (value b + p.2) = value p.1) :
    (run (loads b l) m).mem = m.mem ∧
      ∀ r, m.get r = value r ∨ r ∈ l.map Prod.fst → (run (loads b l) m).get r = value r := by
  induction l generalizing m with
  | nil => exact ⟨rfl, fun r hr => hr.resolve_right nofun⟩
  | cons p l ih =>
    obtain ⟨hp0, hp⟩ := hl p List.mem_cons_self
    have hval : ((Instr.ld p.1 p.2 b).step m).get p.1 = value p.1 := by
      show (m.set p.1 (m.read (m.get b + p.2))).get p.1 = _
      rw [get_set _ _ hp0, hb, hp]
    have hother : ∀ r, r ≠ p.1 → ((Instr.ld p.1 p.2 b).step m).get r = m.get r :=
      fun r hr => get_set_of_ne hr
    have hkeep : ∀ r, m.get r = value r → ((Instr.ld p.1 p.2 b).step m).get r = value r := by
      intro r hr
      by_cases he : r = p.1
      · rw [he, hval]
      · rw [hother r he, hr]
    obtain ⟨hmem, hget⟩ := ih ((Instr.ld p.1 p.2 b).step m) (hkeep b hb) fun q hq =>
      hl q (List.mem_cons_of_mem _ hq)
    refine ⟨hmem, fun r hr => hget r ?_⟩
    rcases hr with hr | hr
    · exact .inl (hkeep r hr)
    · rw [List.map_cons] at hr
      rcases List.mem_cons.mp hr with rfl | hr
      · exact .inl hval
      · exact .inr hr

end OSCompas.RiscV
