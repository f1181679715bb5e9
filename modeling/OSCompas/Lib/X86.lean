import OSCompas.Lib.ByteMemory
import Mathlib.Logic.Function.Basic

/-!
# A part of the 32-bit x86

Registers, flags and byte memory, and the instructions that routines for saving and loading contexts
are made of.  Nothing here names a program.

* `Machine` — general registers, segment registers, flags, memory;
* `Instr` — an instruction of straight-line code; `Line` — one of a listing, with forward jumps;
* `Instr.step`, `run`, `exec` — what they do; `mov` to `cs` is an invalid opcode;
* `Instr.keeps`, `Instr.within` — instructions that do not write a register, and that write memory
  only next to a base register.

Principal results: `exec_block`, `run_keeps`, `run_within`, `pushes_spec`.
-/

set_option autoImplicit false

namespace OSCompas.X86

open ByteMemory Function

/-- The size of the address space. -/
abbrev W : Nat := 2 ^ 32

inductive Reg where
  | eax
  | ecx
  | edx
  | ebx
  | esp
  | ebp
  | esi
  | edi
  deriving DecidableEq, Repr

inductive Seg where
  | cs
  | ds
  | es
  | fs
  | gs
  | ss
  deriving DecidableEq, Repr

structure Machine where
  reg : Reg → UInt32
  seg : Seg → UInt16
  flags : UInt32
  mem : Mem

namespace Machine

/-- The word at `a`. -/
def read (m : Machine) (a : UInt32) : UInt32 := UInt32.ofNat (ByteMemory.load W m.mem a.toNat 4)

/-- The half word at `a`. -/
def read16 (m : Machine) (a : UInt32) : UInt16 := UInt16.ofNat (ByteMemory.load W m.mem a.toNat 2)

/-- Write the `n` low bytes of `v` at `a`. -/
def write (m : Machine) (a : UInt32) (n v : Nat) : Machine :=
  { m with mem := ByteMemory.store W m.mem a.toNat n v }

def set (m : Machine) (r : Reg) (v : UInt32) : Machine := { m with reg := update m.reg r v }

def push (m : Machine) (v : UInt32) : Machine :=
  (m.set .esp (m.reg .esp - 4)).write (m.reg .esp - 4) 4 v.toNat

/-- The words of a list, one after the other. -/
def pushes (m : Machine) (vs : List UInt32) : Machine := vs.foldl push m

/-- The registers that `popa` loads; the word of `esp` is skipped. -/
def popa (m : Machine) : Machine :=
  let e := m.reg .esp
  { m with reg := fun
    | .edi => m.read e
    | .esi => m.read (e + 4)
    | .ebp => m.read (e + 8)
    | .esp => e + 32
    | .ebx => m.read (e + 16)
    | .edx => m.read (e + 20)
    | .ecx => m.read (e + 24)
    | .eax => m.read (e + 28) }

end Machine

/-- The zero flag. -/
def ZF : UInt32 := 0x40

/-- The flags after a logical operation with the result `v`: carry and overflow are cleared; zero,
sign and parity are set from the result. -/
def logicFlags (flags v : UInt32) : UInt32 :=
  (flags &&& ~~~ 0x8c5) ||| (if v = 0 then ZF else 0) ||| (if 0x80000000 ≤ v then 0x80 else 0) |||
    (if ((List.range 8).filter fun i => v.toNat.testBit i).length % 2 = 0 then 0x4 else 0)

/-- Instructions of straight-line code; an operand `d(b)` is the memory at `b + d`. -/
inductive Instr where
  | pusha
  | pushf
  | popa
  | popf
  | load (d : UInt32) (b r : Reg)
  | store (r : Reg) (d : UInt32) (b : Reg)
  | loadSeg (d : UInt32) (b : Reg) (g : Seg)
  | storeSeg (g : Seg) (d : UInt32) (b : Reg)
  | test (r r' : Reg)
  deriving DecidableEq, Repr

/-- One instruction; `none` is an invalid opcode. -/
def Instr.step (m : Machine) : Instr → Option Machine
  | .pusha => some (m.pushes [m.reg .eax, m.reg .ecx, m.reg .edx, m.reg .ebx, m.reg .esp, m.reg .ebp,
      m.reg .esi, m.reg .edi])
  | .pushf => some (m.push m.flags)
  | .popa => some m.popa
  | .popf => some { m.set .esp (m.reg .esp + 4) with flags := m.read (m.reg .esp) }
  | .load d b r => some (m.set r (m.read (m.reg b + d)))
  | .store r d b => some (m.write (m.reg b + d) 4 (m.reg r).toNat)
  | .loadSeg d b g => if g = .cs then none else
      some { m with seg := update m.seg g (m.read16 (m.reg b + d)) }
  | .storeSeg g d b => some (m.write (m.reg b + d) 2 (m.seg g).toNat)
  | .test r r' => some { m with flags := logicFlags m.flags (m.reg r &&& m.reg r') }

/-- A line of a listing with the labels `L`. -/
inductive Line (L : Type) where
  | instr (i : Instr)
  | jz (l : L)
  | label (l : L)
  | ret
  deriving DecidableEq, Repr

/-- How the execution of a listing ends: it returned to an address, it came to an invalid opcode, or
it ran over the end. -/
inductive Outcome where
  | returned (m : Machine) (eip : UInt32)
  | invalid (m : Machine)
  | over (m : Machine)

def Outcome.machine : Outcome → Machine
  | .returned m _ => m
  | .invalid m => m
  | .over m => m

/-- Straight-line code; `error` is the state before an invalid opcode. -/
def run : List Instr → Machine → Except Machine Machine
  | [], m => .ok m
  | i :: is, m => match i.step m with
    | none => .error m
    | some m' => run is m'

/-- A listing; while a jump is under way, `target` is the label that is looked for further down. -/
def exec {L : Type} [DecidableEq L] : List (Line L) → Option L → Machine → Outcome
  | [], _, m => .over m
  | line :: rest, some l, m => exec rest (if line = .label l then none else some l) m
  | .instr i :: rest, none, m => match i.step m with
    | none => .invalid m
    | some m' => exec rest none m'
  | .jz l :: rest, none, m => exec rest (if m.flags &&& ZF = 0 then none else some l) m
  | .label _ :: rest, none, m => exec rest none m
  | .ret :: _, none, m => .returned (m.set .esp (m.reg .esp + 4)) (m.read (m.reg .esp))

variable {L : Type} [DecidableEq L] {m m' m'' : Machine} {a d e v : UInt32} {r b : Reg} {n k : Nat}
  {i : Instr} {is : List Instr} {rest : List (Line L)}

/-! ## Listings -/

/-- **A block of straight-line code runs as one step.** -/
theorem exec_block (is : List Instr) (rest : List (Line L)) (m : Machine) :
    exec (is.map .instr ++ rest) none m = match run is m with
      | .error m' => .invalid m'
      | .ok m' => exec rest none m' := by
  induction is generalizing m with
  | nil => rfl
  | cons i is ih =>
    simp only [List.map_cons, List.cons_append, exec, run]
    cases i.step m with
    | none => rfl
    | some m' => exact ih m'

theorem exec_block_ok (h : run is m = .ok m') :
    exec (is.map .instr ++ rest) none m = exec rest none m' := by
  rw [exec_block, h]

theorem exec_block_error (h : run is m = .error m') :
    exec (is.map .instr ++ rest) none m = .invalid m' := by
  rw [exec_block, h]

/-- A jump passes over straight-line code. -/
theorem exec_skip (is : List Instr) (rest : List (Line L)) (l : L) (m : Machine) :
    exec (is.map .instr ++ rest) (some l) m = exec rest (some l) m := by
  induction is with
  | nil => rfl
  | cons i is ih =>
    simp only [List.map_cons, List.cons_append, exec, reduceCtorEq, if_false]
    exact ih

/-! ## The zero flag -/

theorem or_and (a b c : UInt32) : (a ||| b) &&& c = (a &&& c) ||| (b &&& c) := by
  apply UInt32.toBitVec_inj.mp
  apply BitVec.eq_of_getLsbD_eq
  intro i _
  simp [Bool.and_or_distrib_right]

theorem and_mask (flags : UInt32) : (flags &&& ~~~ 0x8c5) &&& ZF = 0 := by
  rw [UInt32.and_assoc, show (~~~ 0x8c5 : UInt32) &&& ZF = 0 by decide, UInt32.and_zero]

/-- `test` sets the zero flag exactly if the result is zero. -/
theorem logicFlags_zero (flags v : UInt32) : logicFlags flags v &&& ZF = 0 ↔ v ≠ 0 := by
  have hsign : (if 0x80000000 ≤ v then 0x80 else 0 : UInt32) &&& ZF = 0 := by
    split <;> decide
  have hparity : (if ((List.range 8).filter fun i => v.toNat.testBit i).length % 2 = 0 then 0x4
      else 0 : UInt32) &&& ZF = 0 := by
    split <;> decide
  have hzero : logicFlags flags v &&& ZF = if v = 0 then ZF else 0 := by
    unfold logicFlags
    rw [or_and, or_and, or_and, and_mask, hsign, hparity]
    split <;> decide
  rw [hzero]
  split
  · rename_i hv
    simp [hv, ZF]
  · rename_i hv
    simp [hv]

/-! ## Registers -/

@[simp] theorem set_reg (m : Machine) (r : Reg) (v : UInt32) : (m.set r v).reg r = v :=
  update_self _ _ _

theorem set_reg_of_ne {r' : Reg} (h : r' ≠ r) : (m.set r v).reg r' = m.reg r' := update_of_ne h _ _

@[simp] theorem set_mem (m : Machine) (r : Reg) (v : UInt32) : (m.set r v).mem = m.mem := rfl

@[simp] theorem set_read (m : Machine) (r : Reg) (v a : UInt32) : (m.set r v).read a = m.read a := rfl

@[simp] theorem write_reg (m : Machine) (a : UInt32) (n v : Nat) : (m.write a n v).reg = m.reg := rfl

/-- The instruction does not write the register. -/
def Instr.keeps (r : Reg) : Instr → Bool
  | .pusha => r ≠ .esp
  | .pushf => r ≠ .esp
  | .popa => false
  | .popf => r ≠ .esp
  | .load _ _ r' => r ≠ r'
  | .store _ _ _ => true
  | .loadSeg _ _ _ => true
  | .storeSeg _ _ _ => true
  | .test _ _ => true

theorem push_reg (m : Machine) (v : UInt32) (h : r ≠ .esp) : (m.push v).reg r = m.reg r :=
  set_reg_of_ne h

theorem pushes_reg (m : Machine) (vs : List UInt32) (h : r ≠ .esp) :
    (m.pushes vs).reg r = m.reg r := by
  induction vs generalizing m with
  | nil => rfl
  | cons v vs ih => exact (ih (m.push v)).trans (push_reg m v h)

/-- A row of pushes, and one more. -/
theorem pushes_concat (m : Machine) (vs : List UInt32) (v : UInt32) :
    m.pushes (vs ++ [v]) = (m.pushes vs).push v := by
  simp [Machine.pushes]

theorem pushes_flags (m : Machine) (vs : List UInt32) : (m.pushes vs).flags = m.flags := by
  induction vs generalizing m with
  | nil => rfl
  | cons v vs ih => exact ih (m.push v)

/-- The nine words that `pusha` and `pushf` push. -/
def Machine.context (m : Machine) : List UInt32 :=
  [m.reg .eax, m.reg .ecx, m.reg .edx, m.reg .ebx, m.reg .esp, m.reg .ebp, m.reg .esi, m.reg .edi,
    m.flags]

theorem context_length (m : Machine) : 4 * m.context.length = 36 := rfl

/-- The machine after `pusha` and `pushf`. -/
def Machine.saved (m : Machine) : Machine := m.pushes m.context

theorem run_pusha_pushf (m : Machine) (is : List Instr) :
    run (.pusha :: .pushf :: is) m = run is m.saved := by
  have hflags := pushes_flags m [m.reg .eax, m.reg .ecx, m.reg .edx, m.reg .ebx, m.reg .esp,
    m.reg .ebp, m.reg .esi, m.reg .edi]
  have hconcat := pushes_concat m [m.reg .eax, m.reg .ecx, m.reg .edx, m.reg .ebx, m.reg .esp,
    m.reg .ebp, m.reg .esi, m.reg .edi] m.flags
  simp only [run, Instr.step]
  rw [hflags, ← hconcat]
  rfl

theorem saved_flags (m : Machine) : m.saved.flags = m.flags := pushes_flags m _

theorem step_keeps (hk : i.keeps r = true) (h : i.step m = some m') : m'.reg r = m.reg r := by
  cases i with
  | pusha =>
    cases h
    exact pushes_reg m _ (of_decide_eq_true hk)
  | pushf =>
    cases h
    exact push_reg m _ (of_decide_eq_true hk)
  | popa => cases hk
  | popf =>
    cases h
    exact set_reg_of_ne (of_decide_eq_true hk)
  | load d b r' =>
    cases h
    exact set_reg_of_ne (of_decide_eq_true hk)
  | store r' d b =>
    cases h
    rfl
  | loadSeg d b g =>
    rw [Instr.step] at h
    split at h
    · cases h
    · cases h
      rfl
  | storeSeg g d b =>
    cases h
    rfl
  | test r' r'' =>
    cases h
    rfl

/-- **A block that does not write a register keeps it.** -/
theorem run_keeps (hk : is.all (Instr.keeps r) = true) (h : run is m = .ok m') :
    m'.reg r = m.reg r := by
  induction is generalizing m with
  | nil => cases h; rfl
  | cons i is ih =>
    rw [List.all_cons, Bool.and_eq_true] at hk
    rw [run] at h
    split at h
    · cases h
    · rename_i m₁ hs
      exact (ih hk.2 h).trans (step_keeps hk.1 hs)

/-- The instruction is not a load of the code segment. -/
def Instr.valid : Instr → Bool
  | .loadSeg _ _ g => g ≠ .cs
  | _ => true

/-- Straight-line code that loads no code segment runs to its end. -/
theorem run_ok (hv : is.all Instr.valid = true) (m : Machine) : ∃ m', run is m = .ok m' := by
  induction is generalizing m with
  | nil => exact ⟨m, rfl⟩
  | cons i is ih =>
    rw [List.all_cons, Bool.and_eq_true] at hv
    have hs : ∃ m₁, i.step m = some m₁ := by
      cases i with
      | loadSeg d b g => exact ⟨_, if_neg (of_decide_eq_true hv.1)⟩
      | _ => exact ⟨_, rfl⟩
    obtain ⟨m₁, hs⟩ := hs
    obtain ⟨m', h⟩ := ih hv.2 m₁
    refine ⟨m', ?_⟩
    rw [run, hs]
    exact h

/-! ## Memory -/

/-- The instruction writes memory only in the `n` bytes from the register `b` on. -/
def Instr.within (b : Reg) (n : Nat) : Instr → Bool
  | .pusha => false
  | .pushf => false
  | .store _ d b' => b' = b ∧ d.toNat + 4 ≤ n
  | .storeSeg _ d b' => b' = b ∧ d.toNat + 2 ≤ n
  | _ => true

theorem toNat_add (a d : UInt32) : (a + d).toNat = (a.toNat + d.toNat) % W := UInt32.toNat_add a d

theorem write_agreeOff {v : Nat} (hd : d.toNat + k ≤ n) (hn : n ≤ W) :
    AgreeOff W m.mem (m.write (a + d) k v).mem a.toNat n := by
  show AgreeOff W m.mem (ByteMemory.store W m.mem (a + d).toNat k v) a.toNat n
  rw [toNat_add]
  exact agreeOff_store a.toNat_lt hd hn

theorem step_within (hn : n ≤ W) (hi : i.within b n = true) (h : i.step m = some m') :
    AgreeOff W m.mem m'.mem (m.reg b).toNat n := by
  cases i with
  | pusha => cases hi
  | pushf => cases hi
  | store r d b' =>
    cases h
    obtain ⟨rfl, hd⟩ := of_decide_eq_true hi
    exact write_agreeOff hd hn
  | loadSeg d b' g =>
    rw [Instr.step] at h
    split at h
    · cases h
    · cases h
      exact .refl _ _ _ _
  | storeSeg g d b' =>
    cases h
    obtain ⟨rfl, hd⟩ := of_decide_eq_true hi
    exact write_agreeOff hd hn
  | _ =>
    cases h
    exact .refl _ _ _ _

/-- **A block that writes next to a base register only** leaves the rest of the memory alone. -/
theorem run_within (hn : n ≤ W) (hk : is.all (Instr.keeps b) = true)
    (hi : is.all (Instr.within b n) = true) (h : run is m = .ok m') :
    AgreeOff W m.mem m'.mem (m.reg b).toNat n := by
  induction is generalizing m with
  | nil =>
    cases h
    exact .refl _ _ _ _
  | cons i is ih =>
    rw [List.all_cons, Bool.and_eq_true] at hk hi
    rw [run] at h
    split at h
    · cases h
    · rename_i m₁ hs
      refine (step_within hn hi.1 hs).trans ?_
      rw [← step_keeps hk.1 hs]
      exact ih hk.2 hi.2 h

/-- A word is not changed by writes in a range that it does not meet. -/
theorem read_of_agreeOff (h : AgreeOff W m.mem m'.mem a.toNat n)
    (hv : ∀ i < 4, ¬ InRange W a.toNat n ((v.toNat + i) % W)) : m'.read v = m.read v := by
  unfold Machine.read
  rw [h.load_eq hv]

/-! ## The stack -/

/-- **What a row of pushes does**: the stack pointer moves down by four for each word, and only the
words passed over are written. -/
theorem pushes_spec (vs : List UInt32) (m : Machine) (hlen : 4 * vs.length ≤ W) :
    (m.pushes vs).reg .esp = m.reg .esp - UInt32.ofNat (4 * vs.length) ∧
      AgreeOff W m.mem (m.pushes vs).mem ((m.pushes vs).reg .esp).toNat (4 * vs.length) := by
  induction vs generalizing m with
  | nil => exact ⟨by simp [Machine.pushes], .refl _ _ _ _⟩
  | cons v vs ih =>
    rw [List.length_cons] at hlen
    obtain ⟨hesp, hmem⟩ := ih (m.push v) (by omega)
    have hpush : (m.push v).reg .esp = m.reg .esp - 4 := set_reg m .esp _
    have hend : (m.pushes (v :: vs)).reg .esp = m.reg .esp - UInt32.ofNat (4 * (vs.length + 1)) := by
      refine hesp.trans ?_
      rw [hpush, Nat.mul_add, UInt32.ofNat_add]
      show m.reg .esp - 4 - _ = m.reg .esp - (_ + 4)
      grind
    refine ⟨hend, AgreeOff.trans ?_ (hmem.mono (Nat.mul_le_mul_left 4 (Nat.le_succ _)))⟩
    -- the first word lies above the words of the rest
    have hplace : m.reg .esp - 4 =
        (m.pushes (v :: vs)).reg .esp + UInt32.ofNat (4 * vs.length) := by
      refine Eq.trans ?_ (congrArg (· + _) hesp.symm)
      rw [hpush]
      grind
    show AgreeOff W m.mem (m.write (m.reg .esp - 4) 4 v.toNat).mem _ _
    rw [hplace]
    have hsize : (UInt32.ofNat (4 * vs.length)).toNat = 4 * vs.length :=
      UInt32.toNat_ofNat_of_lt' (Nat.lt_of_lt_of_le (by omega) hlen)
    exact write_agreeOff (by rw [hsize, List.length_cons]; omega) hlen

/-! ## Areas and rows of words -/

/-- A range of addresses, around the end of the address space. -/
structure Area where
  base : UInt32
  size : Nat
  deriving DecidableEq, Repr

def Area.Has (r : Area) (x : Nat) : Prop := InRange W r.base.toNat r.size x

def Area.Apart (r s : Area) : Prop := ∀ x, r.Has x → ¬ s.Has x

/-- Areas that do not go around the end, one below the other. -/
theorem Area.apart_of_le {r s : Area} (h : r.base.toNat + r.size ≤ s.base.toNat)
    (hs : s.base.toNat + s.size ≤ W) : r.Apart s := by
  intro x hr hs'
  have hrW := r.base.toNat_lt
  have hsW := s.base.toNat_lt
  have hr : (x + (2 ^ 32 - r.base.toNat)) % 2 ^ 32 < r.size := hr
  have hs' : (x + (2 ^ 32 - s.base.toNat)) % 2 ^ 32 < s.size := hs'
  have hs : s.base.toNat + s.size ≤ 2 ^ 32 := hs
  omega

/-- The words from `a` on. -/
def Machine.words (m : Machine) (a : UInt32) : Nat → List UInt32
  | 0 => []
  | n + 1 => m.read a :: m.words (a + 4) n

/-- Write a row of words from `a` on. -/
def Machine.writeWords (m : Machine) (a : UInt32) : List UInt32 → Machine
  | [] => m
  | v :: vs => (m.write a 4 v.toNat).writeWords (a + 4) vs

/-- An address that lies `d` above `a`, seen from `a`. -/
theorem inRange_add_iff {x : Nat} (hdn : d.toNat + n ≤ W) (hn : 0 < n) :
    InRange W (a + d).toNat n x ↔
      d.toNat ≤ offset W a.toNat x ∧ offset W a.toNat x < d.toNat + n := by
  unfold InRange
  rw [toNat_add, offset_shift_lt_iff a.toNat_lt hdn hn]

/-- The bytes of a word that lies `d` above `a`. -/
theorem offset_word {j : Nat} (hd : d.toNat + j < W) :
    offset W a.toNat (((a + d).toNat + j) % W) = d.toNat + j := by
  rw [toNat_add, Nat.mod_add_mod, Nat.add_assoc, offset_add_mod a.toNat_lt hd]

/-- A word above the range that was written. -/
theorem read_above (h : AgreeOff W m.mem m'.mem a.toNat n) (hn : n ≤ d.toNat)
    (hd : d.toNat + 4 ≤ W) : m'.read (a + d) = m.read (a + d) := by
  apply read_of_agreeOff h
  intro i hi
  unfold InRange
  rw [offset_word (by omega)]
  omega

theorem saved_esp (m : Machine) : m.saved.reg .esp = m.reg .esp - 36 := by
  have hspec := pushes_spec m.context m (by rw [context_length]; decide)
  rw [context_length] at hspec
  exact hspec.1

theorem saved_agreeOff (m : Machine) : AgreeOff W m.mem m.saved.mem (m.reg .esp - 36).toNat 36 := by
  have hspec := pushes_spec m.context m (by rw [context_length]; decide)
  rw [context_length] at hspec
  rw [← saved_esp]
  exact hspec.2

/-- A word of the caller is seen at its place above the nine words. -/
theorem saved_read (m : Machine) (hde : d = 36 + e) (hd : 36 ≤ d.toNat) (hd' : d.toNat + 4 ≤ W) :
    m.saved.read (m.saved.reg .esp + d) = m.read (m.reg .esp + e) := by
  have hplace : m.reg .esp + e = m.reg .esp - 36 + d := by
    rw [hde]
    grind
  rw [saved_esp, hplace]
  exact read_above (saved_agreeOff m) hd hd'

theorem read_write (m : Machine) (a v : UInt32) : (m.write a 4 v.toNat).read a = v := by
  unfold Machine.read Machine.write
  dsimp only
  rw [load_store_around a.toNat_lt (by decide),
    Nat.mod_eq_of_lt (show v.toNat < 256 ^ 4 from v.toNat_lt),
    UInt32.ofNat_toNat]

/-- A word beside the one that was written. -/
theorem read_write_apart {v : Nat} (hd : d.toNat + 4 ≤ W) (he : e.toNat + 4 ≤ W)
    (h : e.toNat + 4 ≤ d.toNat ∨ d.toNat + 4 ≤ e.toNat) :
    (m.write (a + d) 4 v).read (a + e) = m.read (a + e) := by
  unfold Machine.read Machine.write
  dsimp only
  rw [toNat_add, toNat_add, load_store_apart a.toNat_lt hd he h]

/-- What a row of words writes. -/
theorem writeWords_agreeOff (vs : List UInt32) (m : Machine) (a : UInt32)
    (hlen : 4 * vs.length ≤ W) :
    AgreeOff W m.mem (m.writeWords a vs).mem a.toNat (4 * vs.length) := by
  induction vs generalizing m a with
  | nil => exact .refl _ _ _ _
  | cons v vs ih =>
    rw [List.length_cons] at hlen ⊢
    have hfirst : AgreeOff W m.mem (m.write a 4 v.toNat).mem a.toNat (4 * (vs.length + 1)) := by
      intro x hx
      apply store_of_not_lt
      intro hlt
      exact hx (Nat.lt_of_lt_of_le hlt (by omega))
    refine hfirst.trans fun x hx => ih _ (a + 4) (by omega) x fun hin => hx ?_
    rcases Nat.eq_zero_or_pos vs.length with h0 | hpos
    · rw [h0] at hin
      cases hin
    · have hfour : (4 : UInt32).toNat = 4 := rfl
      rw [inRange_add_iff (by omega) (by omega)] at hin
      show offset W a.toNat x < _
      omega

/-- A row of words is read back. -/
theorem words_writeWords (vs : List UInt32) (m : Machine) (a : UInt32) (hlen : 4 * vs.length ≤ W) :
    (m.writeWords a vs).words a vs.length = vs := by
  induction vs generalizing m a with
  | nil => rfl
  | cons v vs ih =>
    rw [List.length_cons] at hlen ⊢
    have hrest := ih (m.write a 4 v.toNat) (a + 4) (by omega)
    have hfirst : ((m.write a 4 v.toNat).writeWords (a + 4) vs).read a = v := by
      refine Eq.trans ?_ (read_write m a v)
      apply read_of_agreeOff (writeWords_agreeOff vs _ (a + 4) (by omega))
      intro i hi hin
      have hfour : (4 : UInt32).toNat = 4 := rfl
      have hoff : offset W a.toNat ((a.toNat + i) % W) = i :=
        offset_add_mod a.toNat_lt (Nat.lt_of_lt_of_le (by omega) hlen)
      rcases Nat.eq_zero_or_pos vs.length with h0 | hpos
      · rw [h0] at hin
        cases hin
      · rw [inRange_add_iff (by omega) (by omega), hoff] at hin
        omega
    show ((m.write a 4 v.toNat).writeWords (a + 4) vs).read a ::
      ((m.write a 4 v.toNat).writeWords (a + 4) vs).words (a + 4) vs.length = v :: vs
    rw [hfirst, hrest]

theorem writeWords_reg (vs : List UInt32) (m : Machine) (a : UInt32) :
    (m.writeWords a vs).reg = m.reg := by
  induction vs generalizing m a with
  | nil => rfl
  | cons v vs ih => exact ih _ _

theorem writeWords_seg (vs : List UInt32) (m : Machine) (a : UInt32) :
    (m.writeWords a vs).seg = m.seg := by
  induction vs generalizing m a with
  | nil => rfl
  | cons v vs ih => exact ih _ _

theorem writeWords_flags (vs : List UInt32) (m : Machine) (a : UInt32) :
    (m.writeWords a vs).flags = m.flags := by
  induction vs generalizing m a with
  | nil => rfl
  | cons v vs ih => exact ih _ _

/-- The words of a row, one by one. -/
theorem words_getElem? {j : Nat} (m : Machine) (a : UInt32) (hj : j < n) :
    (m.words a n)[j]? = some (m.read (a + UInt32.ofNat (4 * j))) := by
  induction n generalizing a j with
  | zero => cases hj
  | succ n ih =>
    cases j with
    | zero => simp [Machine.words]
    | succ j =>
      have hplace : a + UInt32.ofNat (4 * (j + 1)) = a + 4 + UInt32.ofNat (4 * j) := by
        rw [Nat.mul_add, UInt32.ofNat_add]
        show a + (_ + 4) = _
        grind
      rw [hplace, ← ih (a + 4) (Nat.lt_of_succ_lt_succ hj)]
      rfl

theorem words_take {j : Nat} (m : Machine) (a : UInt32) (hj : j ≤ n) :
    (m.words a n).take j = m.words a j := by
  induction j generalizing a n with
  | zero => rfl
  | succ j ih =>
    cases n with
    | zero => cases hj
    | succ n => exact congrArg (m.read a :: ·) (ih (a + 4) (Nat.le_of_succ_le_succ hj))

/-! ## Machines that differ in an area -/

/-- The machines differ in the memory of an area only. -/
structure Machine.Alike (m m' : Machine) (r : Area) : Prop where
  reg : m'.reg = m.reg
  seg : m'.seg = m.seg
  flags : m'.flags = m.flags
  mem : AgreeOff W m.mem m'.mem r.base.toNat r.size

section Alike

variable {s : Area}

theorem Machine.Alike.set (h : m.Alike m' s) (r : Reg) (v : UInt32) :
    (m.set r v).Alike (m'.set r v) s where
  reg := by
    show Function.update m'.reg r v = Function.update m.reg r v
    rw [h.reg]
  seg := h.seg
  flags := h.flags
  mem := h.mem

theorem Machine.Alike.setFlags (h : m.Alike m' s) (flags : UInt32) :
    ({ m with flags := flags } : Machine).Alike { m' with flags := flags } s :=
  ⟨h.reg, h.seg, rfl, h.mem⟩

theorem Machine.Alike.push (h : m.Alike m' s) (v : UInt32) : (m.push v).Alike (m'.push v) s where
  reg := by
    show Function.update m'.reg .esp (m'.reg .esp - 4) = Function.update m.reg .esp (m.reg .esp - 4)
    rw [h.reg]
  seg := h.seg
  flags := h.flags
  mem := by
    show AgreeOff W _ (ByteMemory.store W m'.mem (m'.reg .esp - 4).toNat 4 v.toNat) _ _
    rw [h.reg]
    exact h.mem.store_store _ _ _

theorem Machine.Alike.pushes (h : m.Alike m' s) (vs : List UInt32) :
    (m.pushes vs).Alike (m'.pushes vs) s := by
  induction vs generalizing m m' with
  | nil => exact h
  | cons v vs ih => exact ih (h.push v)

theorem Machine.Alike.saved (h : m.Alike m' s) : m.saved.Alike m'.saved s := by
  have hcontext : m'.context = m.context := by
    unfold Machine.context
    rw [h.reg, h.flags]
  unfold Machine.saved
  rw [hcontext]
  exact h.pushes _

/-- **Where the machines differ is overwritten**, so they are the same. -/
theorem Machine.Alike.write_eq {v : Nat} (h : m.Alike m' ⟨a, n⟩) : m'.write a n v = m.write a n v := by
  obtain ⟨hreg, hseg, hflags, hmem⟩ := h
  have hstore : ByteMemory.store W m'.mem a.toNat n v = ByteMemory.store W m.mem a.toNat n v :=
    hmem.store
  cases m
  cases m'
  cases hreg
  cases hseg
  cases hflags
  exact congrArg (Machine.mk _ _ _) hstore

end Alike

end OSCompas.X86
