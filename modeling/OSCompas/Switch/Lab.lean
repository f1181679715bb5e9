import OSCompas.Lib.X86

/-!
# Assembly and the PCB (`lab3-2-sparrowos-scheduler/src/context_switch.S`, `include/pcb.h`)

`context_save` and `context_switch` address the PCB by fixed displacements, as if the saved registers
came first in it; `pcb_t` begins with the pid, the name and the state.

* `Field`, `pcbFields`, `Field.offset` — the members of `pcb_t` and where the C compiler puts them;
* `contextSave`, `contextSwitch` — the listings;
* `SaveKeeps`, `SwitchKeeps`, `FirstSwitch` — the three parts of what is promised.

Principal results: `contextSave_same`, `contextSwitch_same` (a pid is overwritten before it is looked
at), `contextSwitch_invalid` and `never_agree`.
-/

set_option autoImplicit false

namespace OSCompas.Switch.Lab

open X86 ByteMemory

/-! ## The layout of `pcb_t` -/

inductive Field where
  | pid
  | name
  | state
  | priority
  | priorityOriginal
  | timeCreated
  | timeStarted
  | timeUsed
  | timeSlice
  | timeSliceUsed
  | vruntime
  | regEsp
  | regEip
  | regEax
  | regEbx
  | regEcx
  | regEdx
  | regEsi
  | regEdi
  | regEbp
  | stackBase
  | stackSize
  | next
  | prev
  | timeInQueue
  | demotions
  | promotions
  deriving DecidableEq, Repr

/-- A member of a structure with its size and alignment. -/
structure Member (α : Type) where
  field : α
  size : Nat
  align : Nat

/-- The members of `pcb_t` in their order, for 32-bit x86. -/
def pcbFields : List (Member Field) := [
  ⟨.pid, 4, 4⟩,
  ⟨.name, 32, 1⟩,
  ⟨.state, 4, 4⟩,
  ⟨.priority, 1, 1⟩,
  ⟨.priorityOriginal, 4, 4⟩,
  ⟨.timeCreated, 4, 4⟩,
  ⟨.timeStarted, 4, 4⟩,
  ⟨.timeUsed, 4, 4⟩,
  ⟨.timeSlice, 4, 4⟩,
  ⟨.timeSliceUsed, 4, 4⟩,
  ⟨.vruntime, 4, 4⟩,
  ⟨.regEsp, 4, 4⟩,
  ⟨.regEip, 4, 4⟩,
  ⟨.regEax, 4, 4⟩,
  ⟨.regEbx, 4, 4⟩,
  ⟨.regEcx, 4, 4⟩,
  ⟨.regEdx, 4, 4⟩,
  ⟨.regEsi, 4, 4⟩,
  ⟨.regEdi, 4, 4⟩,
  ⟨.regEbp, 4, 4⟩,
  ⟨.stackBase, 4, 4⟩,
  ⟨.stackSize, 4, 4⟩,
  ⟨.next, 4, 4⟩,
  ⟨.prev, 4, 4⟩,
  ⟨.timeInQueue, 4, 4⟩,
  ⟨.demotions, 1, 1⟩,
  ⟨.promotions, 1, 1⟩]

/-- The next multiple of `align`. -/
def roundUp (n align : Nat) : Nat := (n + align - 1) / align * align

/-- Where the C compiler places the members, from the first free byte on. -/
def layOut {α : Type} (free : Nat) : List (Member α) → List (α × Nat × Nat)
  | [] => []
  | f :: rest => (f.field, roundUp free f.align, f.size) :: layOut (roundUp free f.align + f.size) rest

/-- Offset and size of a member. -/
def Field.place (f : Field) : Nat × Nat :=
  ((layOut 0 pcbFields).find? fun r => r.1 = f).elim (0, 0) fun r => r.2

def Field.offset (f : Field) : Nat := f.place.1

def Field.size (f : Field) : Nat := f.place.2

/-- `sizeof(pcb_t)`. -/
def pcbSize : Nat := 132

example : Field.regEsp.offset = 72 ∧ Field.regEip.offset = 76 ∧ Field.next.offset = 116 := by decide

/-- The members that hold the context. -/
def Field.isReg : Field → Bool
  | .regEsp => true
  | .regEip => true
  | .regEax => true
  | .regEbx => true
  | .regEcx => true
  | .regEdx => true
  | .regEsi => true
  | .regEdi => true
  | .regEbp => true
  | _ => false

/-! ## The listings -/

inductive Label where
  | skipSave
  deriving DecidableEq, Repr

/-- The segment registers go to the PCB in `eax`. -/
def saveSegments : List Instr := [
  .storeSeg .cs 44 .eax,
  .storeSeg .ds 48 .eax,
  .storeSeg .es 52 .eax,
  .storeSeg .fs 56 .eax,
  .storeSeg .gs 60 .eax,
  .storeSeg .ss 64 .eax]

/-- The nine words go to the PCB in `eax`, by way of the register `r`. -/
def saveWords (r : Reg) : List Instr := [
  .load 8 .esp r,
  .store r 8 .eax,
  .load 12 .esp r,
  .store r 12 .eax,
  .load 16 .esp r,
  .store r 16 .eax,
  .load 20 .esp r,
  .store r 20 .eax,
  .load 28 .esp r,
  .store r 28 .eax,
  .load 32 .esp r,
  .store r 32 .eax,
  .load 36 .esp r,
  .store r 36 .eax,
  .load 40 .esp r,
  .store r 68 .eax]

/-- `context_save`: the registers are pushed and the argument read. -/
def saveEntry : List Instr := [
  .pusha,
  .pushf,
  .load 40 .esp .eax]

/-- The stack pointer goes to the PCB in `eax`. -/
def saveStack : List Instr := [.store .esp 0 .eax]

/-- The return address goes to the PCB in `eax`, by way of the register `r`. -/
def saveReturn (r : Reg) : List Instr := [
  .load 4 .esp r,
  .store r 4 .eax]

/-- The registers are popped. -/
def leave : List Instr := [
  .popf,
  .popa]

/-- `context_save`. -/
def contextSave : List (Line Label) :=
  saveEntry.map .instr ++ (saveStack.map .instr ++
    ((saveReturn .ebx ++ saveSegments ++ saveWords .ebx ++ leave).map .instr ++ [.ret]))

/-- `context_switch`: the registers are pushed and the arguments read. -/
def switchEntry : List Instr := [
  .pusha,
  .pushf,
  .load 44 .esp .eax,
  .load 48 .esp .ebx,
  .test .eax .eax]

/-- From `.skip_save` to the code segment. -/
def switchStack : List Instr := [
  .load 0 .ebx .esp,
  .load 4 .ebx .ecx,
  .store .ecx 4 .esp]

/-- The rest of `context_switch`. -/
def restoreNext : List Instr := [
  .loadSeg 44 .ebx .cs,
  .loadSeg 48 .ebx .ds,
  .loadSeg 52 .ebx .es,
  .loadSeg 56 .ebx .fs,
  .loadSeg 60 .ebx .gs,
  .loadSeg 64 .ebx .ss,
  .load 8 .ebx .eax,
  .store .eax 8 .esp,
  .load 12 .ebx .ecx,
  .store .ecx 12 .esp,
  .load 16 .ebx .edx,
  .store .edx 16 .esp,
  .load 20 .ebx .ebx,
  .store .ebx 20 .esp,
  .load 28 .ebx .esi,
  .store .esi 28 .esp,
  .load 32 .ebx .edi,
  .store .edi 32 .esp,
  .load 36 .ebx .ebp,
  .store .ebp 36 .esp,
  .load 68 .ebx .ecx,
  .store .ecx 40 .esp]

/-- `context_switch`. -/
def contextSwitch : List (Line Label) :=
  switchEntry.map .instr ++ .jz .skipSave :: (saveStack.map .instr ++
    ((saveReturn .ecx ++ saveSegments ++ saveWords .ecx).map .instr ++
      .label .skipSave :: (switchStack.map .instr ++ (restoreNext.map .instr ++
        (leave.map .instr ++ [.ret])))))

/-! ## The property -/

/-- The PCB at `p`. -/
def pcb (p : UInt32) : Area := ⟨p, pcbSize⟩

/-- The member `f` of the PCB at `p` has the same bytes in both memories. -/
def FieldKept (mem mem' : Mem) (p : UInt32) (f : Field) : Prop :=
  ∀ i < f.size, mem' ((p.toNat + (f.offset + i)) % W) = mem ((p.toNat + (f.offset + i)) % W)

/-- All members but those of the context are kept. -/
def OthersKept (mem mem' : Mem) (p : UInt32) : Prop :=
  ∀ f : Field, f.isReg = false → FieldKept mem mem' p f

/-- `m` is at the entry of a routine called with the arguments `args`, which neither meet the PCBs
`p` and `q` nor do the nine words below and the word above them. -/
structure Called (m : Machine) (back p q : UInt32) : Prop where
  words : m.words (m.reg .esp) 3 = [back, p, q]
  apart : ∀ x, InRange W (m.reg .esp - 36).toNat 52 x → ¬ (pcb p).Has x ∧ ¬ (pcb q).Has x

/-- `m'` is `m` with other contents of the two PCBs. -/
structure Contents (m m' : Machine) (p q : UInt32) : Prop where
  reg : m'.reg = m.reg
  seg : m'.seg = m.seg
  flags : m'.flags = m.flags
  mem : ∀ x, ¬ (pcb p).Has x → ¬ (pcb q).Has x → m'.mem x = m.mem x

/-- `context_save(p)` writes the context only, whatever is in the PCBs. -/
def SaveKeeps (m : Machine) (p q : UInt32) : Prop :=
  ∀ m', Contents m m' p q → OthersKept m'.mem (exec contextSave none m').machine.mem p

/-- `context_switch(p, q)` writes the contexts only, whatever is in the PCBs. -/
def SwitchKeeps (m : Machine) (p q : UInt32) : Prop :=
  ∀ m', Contents m m' p q → OthersKept m'.mem (exec contextSwitch none m').machine.mem p ∧
    OthersKept m'.mem (exec contextSwitch none m').machine.mem q

/-- The stack pointer and instruction pointer that `scheduler_create_process` stores. -/
structure Created (m : Machine) (q : UInt32) : Prop where
  esp : m.read (q + 72) = 0x1000 + m.read q * 0x1000
  eip : m.read (q + 76) = 0x400000

/-- `context_switch(p, q)` to a PCB that was just created goes on where it says, wherever the stack
is then. -/
def FirstSwitch (m : Machine) (p q : UInt32) : Prop :=
  ∀ m', Contents m m' p q → Created m' q → ∃ m'',
    exec contextSwitch none m' = .returned m'' (m'.read (q + 76))

/-! ## The pid is overwritten -/

variable {m m' : Machine} {back p q : UInt32}

/-- Saving the stack pointer writes over the pid. -/
theorem saveStack_same {f f' : Machine} (h : f.Alike f' ⟨q, 4⟩) (hq : f.reg .eax = q)
    (rest : List (Line Label)) :
    exec (saveStack.map .instr ++ rest) none f' = exec (saveStack.map .instr ++ rest) none f := by
  have hrun : ∀ f : Machine, run saveStack f =
      .ok (f.write (f.reg .eax + 0) 4 (f.reg .esp).toNat) := fun _ => rfl
  rw [exec_block_ok (hrun f), exec_block_ok (hrun f'), h.reg, hq, UInt32.add_zero, h.write_eq]

/-- The first lines of `context_save` read the first argument. -/
theorem saveEntry_spec (hp : m.read (m.reg .esp + 4) = p) :
    run saveEntry m = .ok (m.saved.set .eax p) := by
  have hrun : ∀ f : Machine, run [.load 40 .esp .eax] f =
      .ok (f.set .eax (f.read (f.reg .esp + 40))) := fun _ => rfl
  have harg := saved_read (d := 40) (e := 4) m (by decide) (by decide) (by decide)
  rw [hp] at harg
  refine (run_pusha_pushf m _).trans ((hrun m.saved).trans ?_)
  rw [harg]

/-- **`context_save` does not look at the pid** before it has written over it. -/
theorem contextSave_same (h : m.Alike m' ⟨p, 4⟩) (hp : m.read (m.reg .esp + 4) = p)
    (hp' : m'.read (m'.reg .esp + 4) = p) :
    exec contextSave none m' = exec contextSave none m := by
  unfold contextSave
  rw [exec_block_ok (saveEntry_spec hp), exec_block_ok (saveEntry_spec hp')]
  exact saveStack_same (h.saved.set .eax p) (set_reg ..) _

/-- The first lines of `context_switch` take the second argument for the first one. -/
theorem switchEntry_spec (hq : m.read (m.reg .esp + 8) = q) : run switchEntry m =
    .ok { (m.saved.set .eax q).set .ebx (m.read (m.reg .esp + 12)) with
      flags := logicFlags m.flags (q &&& q) } := by
  have hrun : ∀ f : Machine, run [.load 44 .esp .eax, .load 48 .esp .ebx, .test .eax .eax] f =
      .ok { (f.set .eax (f.read (f.reg .esp + 44))).set .ebx (f.read (f.reg .esp + 48)) with
        flags := logicFlags f.flags (f.read (f.reg .esp + 44) &&& f.read (f.reg .esp + 44)) } :=
    fun _ => rfl
  have hcurrent := saved_read (d := 44) (e := 8) m (by decide) (by decide) (by decide)
  have hnext := saved_read (d := 48) (e := 12) m (by decide) (by decide) (by decide)
  rw [hq] at hcurrent
  refine (run_pusha_pushf m _).trans ((hrun m.saved).trans ?_)
  rw [hcurrent, hnext, saved_flags]

/-- **`context_switch` does not look at the pid of its second argument** before it has written over
it. -/
theorem contextSwitch_same (h : m.Alike m' ⟨q, 4⟩) (h0 : q ≠ 0)
    (hq : m.read (m.reg .esp + 8) = q) (hq' : m'.read (m'.reg .esp + 8) = q)
    (hn : m'.read (m'.reg .esp + 12) = m.read (m.reg .esp + 12)) :
    exec contextSwitch none m' = exec contextSwitch none m := by
  have hjump : ∀ flags, logicFlags flags (q &&& q) &&& ZF = 0 := fun flags => by
    rw [logicFlags_zero, UInt32.and_self]
    exact h0
  have halike := ((h.saved.set .eax q).set .ebx (m.read (m.reg .esp + 12))).setFlags
    (logicFlags m.flags (q &&& q))
  unfold contextSwitch
  rw [exec_block_ok (switchEntry_spec hq), exec_block_ok (switchEntry_spec hq'), hn, h.flags]
  simp only [exec, hjump, if_true]
  exact saveStack_same halike rfl _

/-! ## The first switch -/

/-- **`context_switch` never gets to its end**: it loads the code segment by `mov`. -/
theorem contextSwitch_invalid (m : Machine) : ∃ m', exec contextSwitch none m = .invalid m' := by
  have hlast : ∀ f : Machine, ∃ m', exec (switchStack.map .instr ++ (restoreNext.map .instr ++
      (leave.map .instr ++ [.ret])) : List (Line Label)) none f = .invalid m' := by
    intro f
    obtain ⟨f₁, hf₁⟩ := run_ok (show switchStack.all Instr.valid = true by decide) f
    have hcs : run restoreNext f₁ = .error f₁ := rfl
    rw [exec_block_ok hf₁, exec_block_error hcs]
    exact ⟨f₁, rfl⟩
  obtain ⟨m₁, hm₁⟩ := run_ok (show switchEntry.all Instr.valid = true by decide) m
  unfold contextSwitch
  rw [exec_block_ok hm₁, exec]
  by_cases hz : m₁.flags &&& ZF = 0
  · rw [if_pos hz]
    obtain ⟨m₂, hm₂⟩ := run_ok (show saveStack.all Instr.valid = true by decide) m₁
    obtain ⟨m₃, hm₃⟩ := run_ok (show (saveReturn .ecx ++ saveSegments ++ saveWords .ecx).all
      Instr.valid = true by decide) m₂
    rw [exec_block_ok hm₂, exec_block_ok hm₃]
    exact hlast m₃
  · rw [if_neg hz, exec_skip, exec_skip]
    exact hlast m₁

/-! ## The pid -/

theorem Called.reads (h : Called m back p q) :
    m.read (m.reg .esp + 4) = p ∧ m.read (m.reg .esp + 8) = q := by
  have hword : ∀ j < 3, some (m.read (m.reg .esp + UInt32.ofNat (4 * j))) = [back, p, q][j]? := by
    intro j hj
    rw [← words_getElem? _ _ hj, h.words]
  exact ⟨Option.some.inj (hword 1 (by decide)), Option.some.inj (hword 2 (by decide))⟩

/-- Another word in a PCB is other contents of the PCBs. -/
theorem contents_writeField {r d : UInt32} (hr : r = p ∨ r = q) (hd : d.toNat + 4 ≤ pcbSize)
    (v : Nat) : Contents m (m.write (r + d) 4 v) p q := by
  have hmem : AgreeOff W m.mem (m.write (r + d) 4 v).mem r.toNat pcbSize :=
    write_agreeOff hd (by decide)
  refine ⟨rfl, rfl, rfl, fun x hp hq => hmem x fun hin => ?_⟩
  rcases hr with rfl | rfl
  · exact hp hin
  · exact hq hin

theorem Contents.trans {m'' : Machine} (h : Contents m m' p q) (h' : Contents m' m'' p q) :
    Contents m m'' p q :=
  ⟨h'.reg.trans h.reg, h'.seg.trans h.seg, h'.flags.trans h.flags,
    fun x hp hq => (h'.mem x hp hq).trans (h.mem x hp hq)⟩

/-- Another pid is other contents of the PCBs. -/
theorem contents_write {r : UInt32} (hr : r = p ∨ r = q) (v : Nat) :
    Contents m (m.write r 4 v) p q := by
  have hcontents := contents_writeField (m := m) (d := 0) hr (by decide) v
  rwa [UInt32.add_zero] at hcontents

/-- The PCB `q` can be one that was just created. -/
theorem exists_created (m : Machine) (p q : UInt32) : ∃ m', Contents m m' p q ∧ Created m' q := by
  set esp : UInt32 := 0x1000 + m.read q * 0x1000 with hesp
  refine ⟨(m.write (q + 72) 4 esp.toNat).write (q + 76) 4 (0x400000 : UInt32).toNat,
    (contents_writeField (.inr rfl) (by decide) _).trans
      (contents_writeField (.inr rfl) (by decide) _), ?_, read_write _ _ _⟩
  have hpid : ((m.write (q + 72) 4 esp.toNat).write (q + 76) 4 (0x400000 : UInt32).toNat).read
      (q + 0) = m.read (q + 0) :=
    (read_write_apart (by decide) (by decide) (by decide)).trans
      (read_write_apart (by decide) (by decide) (by decide))
  rw [UInt32.add_zero] at hpid
  rw [hpid, read_write_apart (by decide) (by decide) (by decide), read_write]

/-- The words of the call are the same with another pid. -/
theorem Called.read_write (h : Called m back p q) {r d : UInt32} (hr : r = p ∨ r = q)
    (hd : d.toNat ≤ 12) (v : Nat) :
    (m.write r 4 v).read (m.reg .esp + d) = m.read (m.reg .esp + d) := by
  have hplace : m.reg .esp + d = m.reg .esp - 36 + (36 + d) := by grind
  have hsum : (36 + d).toNat = 36 + d.toNat := by
    rw [toNat_add]
    show (36 + d.toNat) % 2 ^ 32 = _
    omega
  unfold Machine.read
  rw [load_eq_of_bytes]
  intro i hi
  have hoff : offset W (m.reg .esp - 36).toNat (((m.reg .esp + d).toNat + i) % W) =
      36 + d.toNat + i := by
    rw [hplace, offset_word, hsum]
    show (36 + d).toNat + i < 2 ^ 32
    omega
  obtain ⟨hp, hq⟩ := h.apart (((m.reg .esp + d).toNat + i) % W) (by rw [InRange, hoff]; omega)
  exact (contents_write hr v).mem _ hp hq

/-- Machines that differ in the pid. -/
theorem alike_write (m : Machine) (r : UInt32) (v w : Nat) :
    (m.write r 4 v).Alike (m.write r 4 w) ⟨r, 4⟩ := by
  refine ⟨rfl, rfl, rfl, fun x hx => ?_⟩
  exact (store_of_not_lt hx).trans (store_of_not_lt hx).symm

/-- A pid that is kept is the one that was there. -/
theorem pid_kept {mem : Mem} {r : UInt32} {v : Nat} (h : OthersKept (m.write r 4 v).mem mem r) :
    mem (r.toNat % W) = UInt8.ofNat v := by
  have hpid := h .pid rfl 0 (by decide)
  have hoff : offset W r.toNat (r.toNat % W) = 0 :=
    offset_add_mod (W := W) (j := 0) r.toNat_lt (by decide)
  refine hpid.trans ?_
  show ByteMemory.store W m.mem r.toNat 4 v (r.toNat % W) = _
  unfold ByteMemory.store
  rw [hoff, if_pos (by decide), Nat.pow_zero, Nat.div_one]

/-- `context_save` does not keep the pid. -/
theorem save_changes (h : Called m back p q) : ¬ SaveKeeps m p q := by
  intro hkeeps
  have hkept₀ := pid_kept (hkeeps _ (contents_write (.inl rfl) 0))
  have hkept₁ := pid_kept (hkeeps _ (contents_write (.inl rfl) 1))
  have hread := fun v => (h.read_write (d := 4) (.inl rfl) (by decide) v).trans h.reads.1
  rw [contextSave_same (alike_write m p 0 1) (hread 0) (hread 1), hkept₀] at hkept₁
  cases hkept₁

/-- `context_switch` does not keep the pid of the PCB it is to switch to. -/
theorem switch_changes (h : Called m back p q) (h0 : q ≠ 0) : ¬ SwitchKeeps m p q := by
  intro hkeeps
  have hkept₀ := pid_kept (hkeeps _ (contents_write (.inr rfl) 0)).2
  have hkept₁ := pid_kept (hkeeps _ (contents_write (.inr rfl) 1)).2
  have hread := fun v => (h.read_write (d := 8) (.inr rfl) (by decide) v).trans h.reads.2
  have hnext := fun v => h.read_write (d := 12) (.inr rfl) (by decide) v
  rw [contextSwitch_same (alike_write m q 0 1) h0 (hread 0) (hread 1)
    ((hnext 1).trans (hnext 0).symm), hkept₀] at hkept₁
  cases hkept₁

/-- A new process is not reached. -/
theorem first_switch_fails (m : Machine) (p q : UInt32) : ¬ FirstSwitch m p q := by
  intro hfirst
  obtain ⟨m', hcontents, hcreated⟩ := exists_created m p q
  obtain ⟨m₁, hm₁⟩ := hfirst m' hcontents hcreated
  obtain ⟨m₂, hm₂⟩ := contextSwitch_invalid m'
  cases hm₁.symm.trans hm₂

/-- **Assembly and C do not agree** at any call: the pid is written over, by both routines, and the
switch to a new process does not come to an end. -/
theorem never_agree (h : Called m back p q) (h0 : q ≠ 0) :
    ¬ SaveKeeps m p q ∧ ¬ SwitchKeeps m p q ∧ ¬ FirstSwitch m p q :=
  ⟨save_changes h, switch_changes h h0, first_switch_fails m p q⟩

/-- A machine at a call with the arguments `0x1000` and `0x2000`. -/
def sample : Machine :=
  { reg := fun _ => 0x8000, seg := fun _ => 0x10, flags := 0x202, mem := fun _ => 0 : Machine }.writeWords
    0x8000 [0x400000, 0x1000, 0x2000]

theorem sample_called : Called sample 0x400000 0x1000 0x2000 := by
  have hesp : sample.reg .esp = 0x8000 := congrFun (writeWords_reg _ _ _) _
  refine ⟨?_, ?_⟩
  · rw [hesp]
    exact words_writeWords [0x400000, 0x1000, 0x2000] _ _ (by decide)
  · rw [hesp]
    intro x hx
    have hframe : (⟨32732, 52⟩ : Area).Has x := hx
    have hp : (pcb 0x1000).Apart ⟨32732, 52⟩ := Area.apart_of_le (by decide) (by decide)
    have hq : (pcb 0x2000).Apart ⟨32732, 52⟩ := Area.apart_of_le (by decide) (by decide)
    exact ⟨fun hin => hp x hin hframe, fun hin => hq x hin hframe⟩

theorem never_agree_run : Called sample 0x400000 0x1000 0x2000 ∧ ¬ SaveKeeps sample 0x1000 0x2000 ∧
    ¬ SwitchKeeps sample 0x1000 0x2000 ∧ ¬ FirstSwitch sample 0x1000 0x2000 :=
  ⟨sample_called, never_agree sample_called (by decide)⟩

/-- At `0x1000` the pid becomes the stack pointer. -/
theorem save_writes_pid : ¬ ∀ (m : Machine) (back p q : UInt32), Called m back p q → q ≠ 0 →
    SaveKeeps m p q ∧ SwitchKeeps m p q ∧ FirstSwitch m p q := by
  intro hall
  exact save_changes sample_called (hall sample 0x400000 0x1000 0x2000 sample_called (by decide)).1

end OSCompas.Switch.Lab
