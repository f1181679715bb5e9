import Mathlib
import OSCompas.Switch.Interrupt

/-!
# Restoring a context, and leaving for user mode (`kernel/arch_x86/context_switch.S`)

* `contextRestore` — writes the words of a PCB to its stack and returns, without popping them;
* `switchToUserMode` — the frame for `iret`, and `iret`;
* `UserOp` — the instructions that only the latter uses.

Principal results: `contextRestore_spec` and `switchToUserMode_spec`.
-/

set_option autoImplicit false

namespace OSCompas.Switch.Arch

open X86 ByteMemory

/-! ## context_restore -/

/-- The words of the PCB in `eax` go to its stack, by way of `ebx`. -/
def restoreWords : List Instr := [
  .load PCB_EIP_OFFSET .eax .ebx,
  .store .ebx 4 .esp,
  .load PCB_EFLAGS_OFFSET .eax .ebx,
  .store .ebx 0 .esp,
  .load PCB_EAX_OFFSET .eax .ebx,
  .store .ebx 8 .esp,
  .load PCB_ECX_OFFSET .eax .ebx,
  .store .ebx 12 .esp,
  .load PCB_EDX_OFFSET .eax .ebx,
  .store .ebx 16 .esp,
  .load PCB_EBX_OFFSET .eax .ebx,
  .store .ebx 20 .esp,
  .load PCB_ESI_OFFSET .eax .ebx,
  .store .ebx 28 .esp,
  .load PCB_EDI_OFFSET .eax .ebx,
  .store .ebx 32 .esp,
  .load PCB_EBP_OFFSET .eax .ebx,
  .store .ebx 36 .esp]

/-- `context_restore` -/
def contextRestore : List (Line Label) :=
  (.load 4 .esp .eax :: .load PCB_ESP_OFFSET .eax .esp :: restoreWords).map .instr ++ [.ret]

/-- Where the words come from in the PCB, and where they go on the stack. -/
def restorePlaces : List (UInt32 × UInt32) := [
  (PCB_EIP_OFFSET, 4),
  (PCB_EFLAGS_OFFSET, 0),
  (PCB_EAX_OFFSET, 8),
  (PCB_ECX_OFFSET, 12),
  (PCB_EDX_OFFSET, 16),
  (PCB_EBX_OFFSET, 20),
  (PCB_ESI_OFFSET, 28),
  (PCB_EDI_OFFSET, 32),
  (PCB_EBP_OFFSET, 36)]

theorem restoreWords_eq : restoreWords =
    restorePlaces.flatMap fun w => [.load w.1 .eax .ebx, .store .ebx w.2 .esp] := rfl

variable {m m' : Machine} {p s d e : UInt32} {ws : List (UInt32 × UInt32)}

/-- The words `ws` have been written from `s` on, the new stack pointer. -/
structure Filling (m : Machine) (p s : UInt32) (ws : List (UInt32 × UInt32)) (b : Machine) :
    Prop where
  eax : b.reg .eax = p
  esp : b.reg .esp = s
  other : ∀ r, r ≠ .eax → r ≠ .ebx → r ≠ .esp → b.reg r = m.reg r
  flags : b.flags = m.flags
  mem : b.mem = (m.put s ws).mem

/-- The words that are copied. -/
def copied (m : Machine) (p : UInt32) (places : List (UInt32 × UInt32)) : List (UInt32 × UInt32) :=
  places.map fun w => (w.2, m.read (p + w.1))

/-- One word is copied; what has been written does not meet the PCB. -/
theorem Filling.copy (hf : Filling m p s ws m') (is : List Instr)
    (hapart : Area.Apart ⟨s, 40⟩ (pcb p)) (hw : ∀ w ∈ ws, w.1.toNat + 4 ≤ 40)
    (he : e.toNat + 4 ≤ 40) : ∃ b,
      run (.load e .eax .ebx :: .store .ebx d .esp :: is) m' = run is b ∧
        Filling m p s (ws ++ [(d, m.read (p + e))]) b ∧ b.reg .ebx = m.read (p + e) := by
  have hmem : AgreeOff W m.mem m'.mem s.toNat 40 := by
    rw [hf.mem]
    exact put_agreeOff (by decide) hw
  have hread : m'.read (m'.reg .eax + e) = m.read (p + e) := by
    rw [hf.eax]
    exact read_apart (r := ⟨s, 40⟩) (s := pcb p) hapart hmem he (show 40 ≤ W by decide)
  refine ⟨_, rfl, ⟨?_, ?_, fun r h₁ h₂ h₃ => ?_, hf.flags, ?_⟩, ?_⟩
  · rw [write_reg, set_reg_of_ne (by decide)]
    exact hf.eax
  · rw [write_reg, set_reg_of_ne (by decide)]
    exact hf.esp
  · rw [write_reg, set_reg_of_ne h₂]
    exact hf.other r h₁ h₂ h₃
  · rw [put_concat, hread, set_reg, set_reg_of_ne (by decide), hf.esp]
    show ByteMemory.store W m'.mem _ _ _ = _
    rw [hf.mem]
    rfl
  · rw [write_reg, set_reg, hread]

/-- All are copied, and `ebx` holds the last one. -/
theorem Filling.copies (places : List (UInt32 × UInt32)) (hf : Filling m p s ws m')
    (hapart : Area.Apart ⟨s, 40⟩ (pcb p)) (hw : ∀ w ∈ ws, w.1.toNat + 4 ≤ 40)
    (hplaces : ∀ w ∈ places, w.1.toNat + 4 ≤ 40 ∧ w.2.toNat + 4 ≤ 40) : ∃ b,
      run (places.flatMap fun w => [.load w.1 .eax .ebx, .store .ebx w.2 .esp]) m' = .ok b ∧
        Filling m p s (ws ++ copied m p places) b ∧
        ∀ w ∈ places.getLast?, b.reg .ebx = m.read (p + w.1) := by
  induction places generalizing ws m' with
  | nil => exact ⟨m', rfl, by simpa [copied] using hf, by simp⟩
  | cons w places ih =>
    obtain ⟨hfrom, hto⟩ := hplaces w List.mem_cons_self
    obtain ⟨b, hb, hfill, hebx⟩ := hf.copy (d := w.2)
      (places.flatMap fun w => [.load w.1 .eax .ebx, .store .ebx w.2 .esp]) hapart hw hfrom
    obtain ⟨b', hb', hfill', hebx'⟩ := ih hfill
      (by
        intro w' hw'
        rcases List.mem_append.mp hw' with hw' | hw'
        · exact hw w' hw'
        · obtain rfl := List.mem_singleton.mp hw'
          exact hto)
      fun w' hw' => hplaces w' (List.mem_cons_of_mem w hw')
    refine ⟨b', hb.trans hb', ?_, ?_⟩
    · simpa [copied] using hfill'
    · cases places with
      | nil =>
        cases hb'
        simpa using hebx
      | cons w' places => simpa using hebx'

/-- The two loads before the copies. -/
theorem run_loads (is : List Instr) (m : Machine) (d e : UInt32) :
    run (.load d .esp .eax :: .load e .eax .esp :: is) m =
      run is ((m.set .eax (m.read (m.reg .esp + d))).set .esp
        (m.read (m.read (m.reg .esp + d) + e))) := rfl

theorem filling_nil (m : Machine) (p s : UInt32) :
    Filling m p s [] ((m.set .eax p).set .esp s) where
  eax := by rw [set_reg_of_ne (by decide), set_reg]
  esp := set_reg _ _ _
  other r h₁ _ h₃ := by rw [set_reg_of_ne h₃, set_reg_of_ne h₁]
  flags := rfl
  mem := rfl

theorem spread_copied (m : Machine) (p : UInt32) : Spread 40 (copied m p restorePlaces) := by
  constructor
  · simp [copied, restorePlaces]
  · simp [copied, restorePlaces, Beside]

/-- All nine words are copied. -/
theorem restoreWords_spec (m : Machine) (hapart : Area.Apart ⟨s, 40⟩ (pcb p)) : ∃ b,
    run restoreWords ((m.set .eax p).set .esp s) = .ok b ∧
      Filling m p s (copied m p restorePlaces) b ∧ b.reg .ebx = m.read (p + PCB_EBP_OFFSET) := by
  obtain ⟨b, hb, hfill, hebx⟩ := (filling_nil m p s).copies restorePlaces hapart
    (by simp) (by simp [restorePlaces])
  have hlast : (PCB_EBP_OFFSET, 36) ∈ restorePlaces.getLast? := by simp [restorePlaces]
  rw [restoreWords_eq]
  exact ⟨b, hb, hfill, hebx (PCB_EBP_OFFSET, 36) hlast⟩

/-- **What `context_restore` does**: it returns to the saved flags as an address, on the stack of
the PCB; `eax` holds the PCB and `ebx` the saved `ebp`, and no other register is written. -/
theorem contextRestore_spec (m : Machine) (hp : m.read (m.reg .esp + 4) = p)
    (hs : m.read (p + PCB_ESP_OFFSET) = s) (hapart : Area.Apart ⟨s, 40⟩ (pcb p)) :
    ∃ m', exec contextRestore none m = .returned m' (m.read (p + PCB_EFLAGS_OFFSET)) ∧
      m'.reg .esp = s + 4 ∧ m'.reg .eax = p ∧ m'.reg .ebx = m.read (p + PCB_EBP_OFFSET) ∧
      (∀ r, r ≠ .eax → r ≠ .ebx → r ≠ .esp → m'.reg r = m.reg r) ∧ m'.flags = m.flags := by
  obtain ⟨b, hb, hfill, hebx⟩ := restoreWords_spec m hapart
  have hrun : run (.load 4 .esp .eax :: .load PCB_ESP_OFFSET .eax .esp :: restoreWords) m =
      .ok b := by
    rw [run_loads, hp, hs, hb]
  have heip : b.read (b.reg .esp) = m.read (p + PCB_EFLAGS_OFFSET) := by
    have hread := read_put (m := m) (a := s) (d := 0) (by decide) (spread_copied m p)
      (show (0, m.read (p + PCB_EFLAGS_OFFSET)) ∈ _ by simp [copied, restorePlaces])
    rw [UInt32.add_zero] at hread
    unfold Machine.read at hread ⊢
    rw [hfill.esp, hfill.mem]
    exact hread
  refine ⟨b.set .esp (b.reg .esp + 4), ?_, ?_, ?_, ?_, fun r h₁ h₂ h₃ => ?_, hfill.flags⟩
  · rw [contextRestore, exec_block_ok hrun, ← heip]
    rfl
  · rw [set_reg, hfill.esp]
  · rw [set_reg_of_ne (by decide), hfill.eax]
  · rw [set_reg_of_ne (by decide), hebx]
  · rw [set_reg_of_ne h₃, hfill.other r h₁ h₂ h₃]

/-- A call with the PCB at 0x1000, whose stack pointer is 0x500. -/
def restoring500 : Machine :=
  Machine.writeWords (Machine.writeWords
    { reg := fun r => if r = .esp then 0x8000 else 0, seg := fun _ => 0x10, flags := 0x202,
      mem := fun _ => 0 } 0x8004 [0x1000]) 0x1000 [0x500, 0x400000, 0x202]

theorem contextRestore_spec_202 : ∃ m', exec contextRestore none restoring500 =
      .returned m' (restoring500.read (0x1000 + PCB_EFLAGS_OFFSET)) ∧
    m'.reg .esp = 0x500 + 4 ∧ m'.reg .eax = 0x1000 ∧
    m'.reg .ebx = restoring500.read (0x1000 + PCB_EBP_OFFSET) ∧
    (∀ r, r ≠ .eax → r ≠ .ebx → r ≠ .esp → m'.reg r = restoring500.reg r) ∧
    m'.flags = restoring500.flags :=
  contextRestore_spec restoring500 (by decide +kernel) (by decide +kernel)
    (Area.apart_of_le (by decide) (by decide))

/-! ## switch_to_user_mode -/

/-- The instructions of `switch_to_user_mode`: the low half of a register, a segment register from
one, a push, and `xor` of a register with itself. -/
inductive UserOp where
  | op (i : Op)
  | movw (v : UInt16) (r : Reg)
  | movSeg (r : Reg) (g : Seg)
  | push (r : Reg)
  | clear (r : Reg)
  deriving DecidableEq, Repr

def UserOp.step (m : Machine) : UserOp → Option Machine
  | .op i => i.step m
  | .movw v r => some (m.set r (m.reg r &&& 0xffff0000 ||| v.toUInt32))
  | .movSeg r g => some { m with seg := Function.update m.seg g (m.reg r).toUInt16 }
  | .push r => some (m.push (m.reg r))
  | .clear r => some { m.set r 0 with flags := logicFlags m.flags 0 }

def runUser : List UserOp → Machine → Option Machine
  | [], m => some m
  | i :: is, m => (i.step m).bind (runUser is)

/-- The data segments. -/
def userSegments : List UserOp := [
  .movw 0x23 .eax,
  .movSeg .eax .ds,
  .movSeg .eax .es,
  .movSeg .eax .fs,
  .movSeg .eax .gs]

/-- The frame for `iret`. -/
def userFrame : List UserOp := [
  .op (.instr (.load 8 .esp .eax)),
  .op (.instr (.load 4 .esp .ebx)),
  .op (.pushImm 0x23),
  .push .eax,
  .op (.instr .pushf),
  .op (.pushImm 0x1B),
  .push .ebx]

def clearRegisters : List UserOp := [
  .clear .eax,
  .clear .ebx,
  .clear .ecx,
  .clear .edx,
  .clear .esi,
  .clear .edi,
  .clear .ebp]

/-- `switch_to_user_mode(entry, stack_top)` -/
def switchToUserMode (m : Machine) : Option Return :=
  (runUser (userSegments ++ userFrame ++ clearRegisters) m).map Machine.iret

theorem runUser_append (is js : List UserOp) (m : Machine) :
    runUser (is ++ js) m = (runUser is m).bind (runUser js) := by
  induction is generalizing m with
  | nil => rfl
  | cons i is ih =>
    rw [List.cons_append, runUser, runUser, Option.bind_assoc]
    exact Option.bind_congr fun m' _ => ih m'

/-- The low half is replaced. -/
theorem low_half (v : UInt32) (w : UInt16) : (v &&& 0xffff0000 ||| w.toUInt32).toUInt16 = w := by
  rw [← UInt16.toBitVec_inj]
  simp

theorem userSegments_spec (m : Machine) : ∃ m₁, runUser userSegments m = some m₁ ∧
    m₁.reg .esp = m.reg .esp ∧ m₁.flags = m.flags ∧ m₁.mem = m.mem ∧ m₁.seg .cs = m.seg .cs ∧
    ∀ g ∈ [Seg.ds, .es, .fs, .gs], m₁.seg g = 0x23 := by
  have hlow := low_half (m.reg .eax) 0x23
  generalize ha : m.reg .eax &&& 0xffff0000 ||| (0x23 : UInt16).toUInt32 = a at hlow
  have hrun : runUser userSegments m = some { m.set .eax a with
      seg := Function.update (Function.update (Function.update (Function.update m.seg .ds
        ((m.set .eax a).reg .eax).toUInt16) .es ((m.set .eax a).reg .eax).toUInt16) .fs
        ((m.set .eax a).reg .eax).toUInt16) .gs ((m.set .eax a).reg .eax).toUInt16 } := by
    rw [← ha]
    rfl
  rw [set_reg, hlow] at hrun
  refine ⟨_, hrun, ?_, rfl, rfl, rfl, by simp⟩
  show (m.set .eax a).reg .esp = m.reg .esp
  exact set_reg_of_ne (by decide)

/-- Words have been pushed, the last one at `d` from the frame. -/
structure Pushed (m : Machine) (s d : UInt32) (ws : List (UInt32 × UInt32)) (b : Machine) :
    Prop where
  esp : b.reg .esp = s + d
  other : ∀ r, r ≠ .esp → b.reg r = m.reg r
  flags : b.flags = m.flags
  seg : b.seg = m.seg
  mem : b.mem = (m.put s ws).mem

theorem Pushed.push (h : Pushed m s (d + 4) ws m') (v : UInt32) :
    Pushed m s d (ws ++ [(d, v)]) (m'.push v) := by
  have hplace : m'.reg .esp - 4 = s + d := by
    rw [h.esp]
    grind
  refine ⟨?_, fun r hr => (push_reg m' v hr).trans (h.other r hr), h.flags, h.seg, ?_⟩
  · rw [← hplace]
    exact set_reg m' .esp _
  · rw [put_concat]
    show ByteMemory.store W m'.mem (m'.reg .esp - 4).toNat 4 v.toNat = _
    rw [hplace, h.mem]
    rfl

/-- The frame: the entry, the code segment, the flags, the stack and its segment. -/
def userWords (entry flags top : UInt32) : List (UInt32 × UInt32) :=
  [(16, 0x23), (12, top), (8, flags), (4, 0x1B), (0, entry)]

theorem spread_userWords (entry flags top : UInt32) : Spread 20 (userWords entry flags top) := by
  constructor
  · simp [userWords]
  · simp [userWords, Beside]

/-- Both arguments are read before anything is pushed. -/
theorem runUser_loads (is : List UserOp) (m : Machine) (d e : UInt32) :
    runUser (.op (.instr (.load d .esp .eax)) :: .op (.instr (.load e .esp .ebx)) :: is) m =
      runUser is ((m.set .eax (m.read (m.reg .esp + d))).set .ebx (m.read (m.reg .esp + e))) := rfl

theorem runUser_pushes (m : Machine) (v w : UInt32) :
    runUser [.op (.pushImm v), .push .eax, .op (.instr .pushf), .op (.pushImm w), .push .ebx] m =
      some (((((m.push v).push (m.reg .eax)).push m.flags).push w).push (m.reg .ebx)) := rfl

/-- The machine after the pushes. -/
theorem userFrame_spec (m : Machine) {entry top : UInt32} (htop : m.read (m.reg .esp + 8) = top)
    (hentry : m.read (m.reg .esp + 4) = entry) : ∃ b, runUser userFrame m = some b ∧
      b.flags = m.flags ∧ b.seg = m.seg ∧
      ∀ d v, (d, v) ∈ userWords entry m.flags top → b.read (b.reg .esp + d) = v := by
  have hesp : ((m.set .eax top).set .ebx entry).reg .esp = m.reg .esp := by
    rw [set_reg_of_ne (by decide), set_reg_of_ne (by decide)]
  have h₁ : Pushed ((m.set .eax top).set .ebx entry) (m.reg .esp - 20) (16 + 4) []
      ((m.set .eax top).set .ebx entry) :=
    ⟨by rw [hesp]; grind, fun _ _ => rfl, rfl, rfl, rfl⟩
  have h₂ := h₁.push 0x23
  have h₃ := Pushed.push (d := 12) h₂ top
  have h₄ := Pushed.push (d := 8) h₃ m.flags
  have h₅ := Pushed.push (d := 4) h₄ 0x1B
  have h₆ := Pushed.push (d := 0) h₅ entry
  refine ⟨_, ?_, h₆.flags, h₆.seg, fun d v hw => ?_⟩
  · rw [userFrame, runUser_loads, htop, hentry, runUser_pushes, set_reg, set_reg_of_ne (by decide),
      set_reg]
    rfl
  · have hread := read_put (m := (m.set .eax top).set .ebx entry) (a := m.reg .esp - 20)
      (by decide) (spread_userWords entry m.flags top) hw
    unfold Machine.read at hread ⊢
    rw [h₆.esp, UInt32.add_zero, h₆.mem]
    exact hread

/-- A logical operation leaves the nested-task flag alone. -/
theorem logicFlags_nested (flags v : UInt32) : logicFlags flags v &&& NT = flags &&& NT := by
  have hzero : (if v = 0 then ZF else 0) &&& NT = 0 := by
    split <;> decide
  have hsign : (if 0x80000000 ≤ v then 0x80 else 0 : UInt32) &&& NT = 0 := by
    split <;> decide
  have hparity : (if ((List.range 8).filter fun i => v.toNat.testBit i).length % 2 = 0 then 0x4
      else 0 : UInt32) &&& NT = 0 := by
    split <;> decide
  unfold logicFlags
  rw [or_and, or_and, or_and, hzero, hsign, hparity, UInt32.and_assoc,
    show (~~~ 0x8c5 : UInt32) &&& NT = NT by decide]
  simp

/-- The registers after `clearRegisters`. -/
theorem clearRegisters_spec (m : Machine) : ∃ b, runUser clearRegisters m = some b ∧
    b.reg .esp = m.reg .esp ∧ (∀ r, r ≠ .esp → b.reg r = 0) ∧ b.mem = m.mem ∧ b.seg = m.seg ∧
    b.flags &&& NT = m.flags &&& NT := by
  refine ⟨_, rfl, rfl, fun r hr => ?_, rfl, rfl, ?_⟩
  · cases r with
    | esp => exact (hr rfl).elim
    | eax | ecx | edx | ebx | ebp | esi | edi => rfl
  · show logicFlags (logicFlags (logicFlags (logicFlags (logicFlags (logicFlags
      (logicFlags m.flags 0) 0) 0) 0) 0) 0) 0 &&& NT = _
    simp only [logicFlags_nested]

/-- A return to an outer level takes everything from the frame. -/
theorem iret_outer (hcpl : m.seg .cs &&& 3 = 0) (hnt : m.flags &&& NT = 0)
    (hvm : m.read (m.reg .esp + 8) &&& VM = 0) (hcs : m.read16 (m.reg .esp + 4) &&& 3 = 3) :
    ∃ m', m.iret = .resumed m' (m.read (m.reg .esp)) ∧
      m'.reg = Function.update m.reg .esp (m.read (m.reg .esp + 12)) ∧
      m'.flags = m.read (m.reg .esp + 8) ∧
      m'.seg = Function.update (Function.update m.seg .cs (m.read16 (m.reg .esp + 4))) .ss
        (m.read16 (m.reg .esp + 16)) := by
  unfold Machine.iret
  simp [hcpl, hcs, hnt, hvm, loadedFlags_zero, Machine.set]

/-- **`switch_to_user_mode` enters the program**, from any machine at level 0 outside of nested and
virtual-8086 tasks: at its entry point, on its stack, in the user segments, with all registers
cleared and the flags of the caller, the interrupt flag among them. -/
theorem switchToUserMode_spec (m : Machine) (hcpl : m.seg .cs &&& 3 = 0)
    (hnt : m.flags &&& NT = 0) (hvm : m.flags &&& VM = 0) :
    ∃ m', switchToUserMode m = some (.resumed m' (m.read (m.reg .esp + 4))) ∧
      m'.reg .esp = m.read (m.reg .esp + 8) ∧ (∀ r, r ≠ .esp → m'.reg r = 0) ∧
      m'.flags = m.flags ∧ m'.seg .cs = 0x1B ∧ ∀ g, g ≠ .cs → m'.seg g = 0x23 := by
  obtain ⟨m₁, hm₁, hesp₁, hfl₁, hmem₁, hcs₁, hseg₁⟩ := userSegments_spec m
  have hread₁ : ∀ a, m₁.read a = m.read a := fun a => by
    unfold Machine.read
    rw [hmem₁]
  obtain ⟨m₂, hm₂, hfl₂, hseg₂, hword⟩ := userFrame_spec m₁ rfl rfl
  rw [hesp₁, hread₁, hread₁, hfl₁] at hword
  obtain ⟨m₃, hm₃, hesp₃, hreg₃, hmem₃, hseg₃, hfl₃⟩ := clearRegisters_spec m₂
  have hword₃ : ∀ d v, (d, v) ∈ userWords (m.read (m.reg .esp + 4)) m.flags
      (m.read (m.reg .esp + 8)) → m₃.read (m₃.reg .esp + d) = v := fun d v hw => by
    unfold Machine.read
    rw [hmem₃, hesp₃]
    exact hword d v hw
  have heip := hword₃ 0 (m.read (m.reg .esp + 4)) (by simp [userWords])
  rw [UInt32.add_zero] at heip
  have hcode : m₃.read16 (m₃.reg .esp + 4) = 0x1B := by
    rw [read16_eq, hword₃ 4 0x1B (by simp [userWords])]
    rfl
  have hstack : m₃.read16 (m₃.reg .esp + 16) = 0x23 := by
    rw [read16_eq, hword₃ 16 0x23 (by simp [userWords])]
    rfl
  have himage := hword₃ 8 m.flags (by simp [userWords])
  obtain ⟨m', hm', hreg, hflags, hseg⟩ := iret_outer (m := m₃)
    (by rw [hseg₃, hseg₂, hcs₁, hcpl]) (by rw [hfl₃, hfl₂, hfl₁, hnt]) (by rw [himage, hvm])
    (by rw [hcode]; rfl)
  refine ⟨m', ?_, ?_, fun r hr => ?_, hflags.trans himage, ?_, fun g hg => ?_⟩
  · rw [switchToUserMode, runUser_append, runUser_append, hm₁, Option.bind_some, hm₂,
      Option.bind_some, hm₃, Option.map_some, hm', heip]
  · rw [hreg, Function.update_self, hword₃ 12 (m.read (m.reg .esp + 8)) (by simp [userWords])]
  · rw [hreg, Function.update_of_ne hr, hreg₃ r hr]
  · rw [hseg, Function.update_of_ne (by decide), Function.update_self, hcode]
  · rw [hseg]
    cases g with
    | cs => exact (hg rfl).elim
    | ss => rw [Function.update_self, hstack]
    | ds | es | fs | gs =>
      rw [Function.update_of_ne (by decide), Function.update_of_ne (by decide), hseg₃, hseg₂,
        hseg₁ _ (by simp)]

/-- A call with the program at 0x400000 and its stack at 0xbffff000, with interrupts enabled. -/
def leaving400000 : Machine :=
  Machine.writeWords
    { reg := fun r => if r = .esp then 0x8000 else 0x1234, seg := fun _ => 0x10, flags := 0x202,
      mem := fun _ => 0x55 } 0x8004 [0x400000, 0xbffff000]

theorem switchToUserMode_spec_400000 : ∃ m',
    switchToUserMode leaving400000 = some (.resumed m' 0x400000) ∧
      m'.reg .esp = 0xbffff000 ∧ (∀ r, r ≠ .esp → m'.reg r = 0) ∧
      m'.flags = 0x202 ∧ m'.seg .cs = 0x1B ∧ ∀ g, g ≠ .cs → m'.seg g = 0x23 := by
  have hentry : leaving400000.read (leaving400000.reg .esp + 4) = 0x400000 := by decide +kernel
  have htop : leaving400000.read (leaving400000.reg .esp + 8) = 0xbffff000 := by decide +kernel
  have h := switchToUserMode_spec leaving400000 (by decide) (by decide) (by decide)
  rw [hentry, htop] at h
  exact h

end OSCompas.Switch.Arch
