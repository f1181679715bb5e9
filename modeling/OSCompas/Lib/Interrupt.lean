import OSCompas.Lib.X86

/-!
# The interrupt return of the 32-bit x86

Pushes of constants and of words of memory, and `iret` in protected mode.  Nothing here names a
program.

* `Machine.put` — words written at distances from an address;
* `Op` — the instructions of `Instr`, and the two pushes;
* `Machine.iret` — the return, to the same or an outer privilege level, or elsewhere.

Principal results: `read_put`, `read_put_apart`, `put_agreeOff` and `iret_resumed`.
-/

set_option autoImplicit false

namespace OSCompas.X86

open ByteMemory

/-! ## Words at distances from an address -/

/-- Write words at distances from `a`, one after the other. -/
def Machine.put (m : Machine) (a : UInt32) : List (UInt32 × UInt32) → Machine
  | [] => m
  | w :: ws => (m.write (a + w.1) 4 w.2.toNat).put a ws

/-- Two words do not overlap. -/
def Beside (d e : UInt32) : Prop := d.toNat + 4 ≤ e.toNat ∨ e.toNat + 4 ≤ d.toNat

/-- The words lie in `n` bytes and do not overlap. -/
structure Spread (n : Nat) (ws : List (UInt32 × UInt32)) : Prop where
  fits : ∀ w ∈ ws, w.1.toNat + 4 ≤ n
  beside : ws.Pairwise fun w w' => Beside w.1 w'.1

variable {m : Machine} {a d v : UInt32} {n : Nat} {ws : List (UInt32 × UInt32)}

/-- One more word. -/
theorem put_concat (m : Machine) (a : UInt32) (ws : List (UInt32 × UInt32)) (w : UInt32 × UInt32) :
    m.put a (ws ++ [w]) = (m.put a ws).write (a + w.1) 4 w.2.toNat := by
  induction ws generalizing m with
  | nil => rfl
  | cons w' ws ih => exact ih _

/-- A word beside those that are written. -/
theorem read_put_apart (hd : d.toNat + 4 ≤ W) (hn : ∀ w ∈ ws, w.1.toNat + 4 ≤ W)
    (h : ∀ w ∈ ws, Beside w.1 d) : (m.put a ws).read (a + d) = m.read (a + d) := by
  induction ws generalizing m with
  | nil => rfl
  | cons w ws ih =>
    have hrest := ih (m := m.write (a + w.1) 4 w.2.toNat) (fun w' hw => hn w' (by simp [hw]))
      fun w' hw => h w' (by simp [hw])
    have hfirst : Beside w.1 d := h w (by simp)
    refine hrest.trans (read_write_apart (hn w (by simp)) hd ?_)
    exact hfirst.symm

/-- **Every word is read back.** -/
theorem read_put (hn : n ≤ W) (hs : Spread n ws) (hw : (d, v) ∈ ws) :
    (m.put a ws).read (a + d) = v := by
  induction ws generalizing m with
  | nil => cases hw
  | cons w ws ih =>
    have hfits : ∀ w' ∈ w :: ws, w'.1.toNat + 4 ≤ W := fun w' hw' =>
      Nat.le_trans (hs.fits w' hw') hn
    obtain ⟨hfirst, hrest⟩ := List.pairwise_cons.mp hs.beside
    have hspread : Spread n ws := ⟨fun w' hw' => hs.fits w' (by simp [hw']), hrest⟩
    show ((m.write (a + w.1) 4 w.2.toNat).put a ws).read (a + d) = v
    rcases List.mem_cons.mp hw with he | hw
    · -- the words after it are beside it
      subst he
      rw [read_put_apart (hfits _ (by simp)) (fun w' hw' => hfits w' (by simp [hw']))
        fun w' hw' => (hfirst w' hw').symm]
      exact read_write m (a + d) v
    · exact ih hspread hw

/-- Nothing else is written. -/
theorem put_agreeOff (hn : n ≤ W) (h : ∀ w ∈ ws, w.1.toNat + 4 ≤ n) :
    AgreeOff W m.mem (m.put a ws).mem a.toNat n := by
  induction ws generalizing m with
  | nil => exact .refl _ _ _ _
  | cons w ws ih =>
    have hfirst := write_agreeOff (m := m) (a := a) (v := w.2.toNat) (h w (by simp)) hn
    exact hfirst.trans (ih fun w' hw' => h w' (by simp [hw']))

/-! ## Pushes -/

/-- Instructions, and the pushes of a constant and of the word at `d(b)`. -/
inductive Op where
  | instr (i : Instr)
  | pushImm (v : UInt32)
  | pushMem (d : UInt32) (b : Reg)
  deriving DecidableEq, Repr

def Op.step (m : Machine) : Op → Option Machine
  | .instr i => i.step m
  | .pushImm v => some (m.push v)
  | .pushMem d b => some (m.push (m.read (m.reg b + d)))

/-- Straight-line code with pushes; `none` is an invalid opcode. -/
def runOps : List Op → Machine → Option Machine
  | [], m => some m
  | i :: is, m => (i.step m).bind (runOps is)

/-! ## The return -/

/-- The nested-task flag. -/
def NT : UInt32 := 0x4000

/-- The virtual-8086 flag. -/
def VM : UInt32 := 0x20000

/-- How `iret` ends: execution goes on at an address, in another task or in virtual-8086 mode, or
the return is refused. -/
inductive Return where
  | resumed (m : Machine) (eip : UInt32)
  | task
  | virtual8086
  | fault

/-- The flags that are loaded: above privilege level 0 not the I/O privilege level, and the
interrupt flag only if that allows it. -/
def loadedFlags (cpl : UInt16) (old image : UInt32) : UInt32 :=
  let keep : UInt32 := if cpl = 0 then 0
    else if cpl.toNat ≤ (old >>> 12 &&& 3).toNat then 0x3000 else 0x3200
  (image &&& ~~~ keep) ||| (old &&& keep)

/-- `iret` in protected mode.  The frame is the instruction pointer, the code segment and the flags;
the stack pointer and segment follow in a return to an outer level only. -/
def Machine.iret (m : Machine) : Return :=
  let e := m.reg .esp
  let cs := m.read16 (e + 4)
  let image := m.read (e + 8)
  let cpl := m.seg .cs &&& 3
  if m.flags &&& NT ≠ 0 then .task
  else if image &&& VM ≠ 0 ∧ cpl = 0 then .virtual8086
  else if cs &&& 3 < cpl then .fault
  else
    let m' := { m with seg := Function.update m.seg .cs cs, flags := loadedFlags cpl m.flags image }
    if cs &&& 3 = cpl then .resumed (m'.set .esp (e + 12)) (m.read e)
    else
      .resumed { m'.set .esp (m.read (e + 12)) with
        seg := Function.update m'.seg .ss (m.read16 (e + 16)) } (m.read e)

theorem loadedFlags_zero (old image : UInt32) : loadedFlags 0 old image = image := by
  unfold loadedFlags
  simp

/-- The low half of a word. -/
theorem read16_eq (m : Machine) (a : UInt32) : m.read16 a = UInt16.ofNat (m.read a).toNat := by
  have hlt : ByteMemory.load W m.mem a.toNat 4 < 2 ^ 32 := load_lt W m.mem a.toNat 4
  have hadd : ByteMemory.load W m.mem a.toNat 4 = _ := load_add W m.mem a.toNat 2 2
  unfold Machine.read16 Machine.read
  rw [UInt32.toNat_ofNat_of_lt' hlt, hadd]
  apply UInt16.toNat_inj.mp
  simp only [UInt16.toNat_ofNat']
  omega

/-- **A return from level 0 to level 0** drops the three words of the frame. -/
theorem iret_resumed (hcpl : m.seg .cs &&& 3 = 0) (hcs : m.read16 (m.reg .esp + 4) &&& 3 = 0)
    (hnt : m.flags &&& NT = 0) (hvm : m.read (m.reg .esp + 8) &&& VM = 0) :
    ∃ m', m.iret = .resumed m' (m.read (m.reg .esp)) ∧
      m'.reg = Function.update m.reg .esp (m.reg .esp + 12) ∧
      m'.flags = m.read (m.reg .esp + 8) := by
  unfold Machine.iret
  simp [hcpl, hcs, hnt, hvm, loadedFlags_zero, Machine.set]

/-- It goes elsewhere for a nested task and for the flags of a virtual-8086 one, and is refused
above level 0. -/
theorem iret_elsewhere {m' : Machine} {eip : UInt32}
    (hcs : m.read16 (m.reg .esp + 4) &&& 3 = 0) (h : m.iret = .resumed m' eip) :
    m.seg .cs &&& 3 = 0 ∧ m.flags &&& NT = 0 ∧ m.read (m.reg .esp + 8) &&& VM = 0 := by
  unfold Machine.iret at h
  by_cases hnt : m.flags &&& NT = 0
  · by_cases hcpl : m.seg .cs &&& 3 = 0
    · by_cases hvm : m.read (m.reg .esp + 8) &&& VM = 0
      · exact ⟨hcpl, hnt, hvm⟩
      · simp [hcpl, hnt, hvm] at h
    · have hpos : 0 < m.seg .cs &&& 3 := UInt16.pos_iff_ne_zero.mpr hcpl
      simp [hcpl, hnt, hcs, hpos] at h
  · simp [hnt] at h

end OSCompas.X86
