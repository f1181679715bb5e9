import OSCompas.Lib.X86

/-!
# The context switch (`lab3-2-sparrowos-scheduler/kernel/arch_x86/context_switch.S`)

`context_switch(current, next)` saves nine words, reads its arguments from the stack, stores the
context in one PCB and loads it from the other.  The words above `esp` are then the nine words and
the return address, so the arguments stand at 40 and 44; the code reads 44 and 48.

* `contextSwitch` — the listing;
* `Calls`, `Layout` — a call under the C calling convention, and where the PCBs and stacks lie;
* `ComesBack` — the second switch continues after the first call.

Principal results: `contextSwitch_spec`, `second_call` and `never_comes_back`.
-/

set_option autoImplicit false

namespace OSCompas.Switch.Arch

open X86 ByteMemory

/-! ## The listing -/

abbrev PCB_CONTEXT_OFFSET : UInt32 := 0

abbrev PCB_ESP_OFFSET : UInt32 := PCB_CONTEXT_OFFSET

abbrev PCB_EIP_OFFSET : UInt32 := PCB_CONTEXT_OFFSET + 4

abbrev PCB_EFLAGS_OFFSET : UInt32 := PCB_CONTEXT_OFFSET + 8

abbrev PCB_EAX_OFFSET : UInt32 := PCB_CONTEXT_OFFSET + 12

abbrev PCB_EBX_OFFSET : UInt32 := PCB_CONTEXT_OFFSET + 16

abbrev PCB_ECX_OFFSET : UInt32 := PCB_CONTEXT_OFFSET + 20

abbrev PCB_EDX_OFFSET : UInt32 := PCB_CONTEXT_OFFSET + 24

abbrev PCB_ESI_OFFSET : UInt32 := PCB_CONTEXT_OFFSET + 28

abbrev PCB_EDI_OFFSET : UInt32 := PCB_CONTEXT_OFFSET + 32

abbrev PCB_EBP_OFFSET : UInt32 := PCB_CONTEXT_OFFSET + 36

inductive Label where
  | skipCurrentSave
  deriving DecidableEq, Repr

/-- The first part: the registers are pushed and the arguments read. -/
def entry : List Instr := [
  .pusha,
  .pushf,
  .load 44 .esp .eax,
  .load 48 .esp .ebx,
  .test .eax .eax]

/-- The context goes to the PCB in `eax`. -/
def saveCurrent : List Instr := [
  .store .esp PCB_ESP_OFFSET .eax,
  .load 4 .esp .ecx,
  .store .ecx PCB_EIP_OFFSET .eax,
  .load 0 .esp .ecx,
  .store .ecx PCB_EFLAGS_OFFSET .eax,
  .load 8 .esp .ecx,
  .store .ecx PCB_EAX_OFFSET .eax,
  .load 12 .esp .ecx,
  .store .ecx PCB_ECX_OFFSET .eax,
  .load 16 .esp .ecx,
  .store .ecx PCB_EDX_OFFSET .eax,
  .load 20 .esp .ecx,
  .store .ecx PCB_EBX_OFFSET .eax,
  .load 28 .esp .ecx,
  .store .ecx PCB_ESI_OFFSET .eax,
  .load 32 .esp .ecx,
  .store .ecx PCB_EDI_OFFSET .eax,
  .load 36 .esp .ecx,
  .store .ecx PCB_EBP_OFFSET .eax]

/-- The stack of the PCB in `ebx`. -/
def switchStack : List Instr := [.load PCB_ESP_OFFSET .ebx .esp]

/-- The context of the PCB in `ebx` goes to its stack; `ebx` itself is loaded on the way. -/
def restoreNext : List Instr := [
  .load PCB_EIP_OFFSET .ebx .ecx,
  .store .ecx 4 .esp,
  .load PCB_EFLAGS_OFFSET .ebx .ecx,
  .store .ecx 0 .esp,
  .load PCB_EAX_OFFSET .ebx .eax,
  .store .eax 8 .esp,
  .load PCB_ECX_OFFSET .ebx .ecx,
  .store .ecx 12 .esp,
  .load PCB_EDX_OFFSET .ebx .edx,
  .store .edx 16 .esp,
  .load PCB_EBX_OFFSET .ebx .ebx,
  .store .ebx 20 .esp,
  .load PCB_ESI_OFFSET .ebx .esi,
  .store .esi 28 .esp,
  .load PCB_EDI_OFFSET .ebx .edi,
  .store .edi 32 .esp,
  .load PCB_EBP_OFFSET .ebx .ebp,
  .store .ebp 36 .esp]

/-- The registers are popped. -/
def leave : List Instr := [.popf, .popa]

/-- From `.skip_current_save` on. -/
def switchToNext : List (Line Label) :=
  switchStack.map .instr ++ (restoreNext.map .instr ++ (leave.map .instr ++ [.ret]))

/-- `context_switch`. -/
def contextSwitch : List (Line Label) :=
  entry.map .instr ++ .jz .skipCurrentSave :: (saveCurrent.map .instr ++
    .label .skipCurrentSave :: switchToNext)

/-! ## The property -/

/-- The context in a PCB. -/
def pcb (p : UInt32) : Area := ⟨p, 40⟩

/-- `m` is at the entry of `context_switch(current, next)`, with room for nine words below. -/
structure Calls (m : Machine) (stack : Area) (back current next : UInt32) : Prop where
  words : m.words (m.reg .esp) 3 = [back, current, next]
  room : ∀ x, InRange W (m.reg .esp - 36).toNat 48 x → stack.Has x

/-- The two PCBs and the two stacks do not meet. -/
structure Layout (a b : UInt32) (stackA stackB : Area) : Prop where
  pcbs : (pcb a).Apart (pcb b)
  pcbA : (pcb a).Apart stackA ∧ (pcb a).Apart stackB
  pcbB : (pcb b).Apart stackA ∧ (pcb b).Apart stackB
  areas : stackA.Apart stackB

/-- The registers, the flags and the stack pointer that a call has to preserve. -/
structure Resumed (m m' : Machine) : Prop where
  ebx : m'.reg .ebx = m.reg .ebx
  esi : m'.reg .esi = m.reg .esi
  edi : m'.reg .edi = m.reg .edi
  ebp : m'.reg .ebp = m.reg .ebp
  flags : m'.flags = m.flags
  esp : m'.reg .esp = m.reg .esp + 4

/-- **After `context_switch(a, b)` in `m`**, every later `context_switch(b, a)` on the other stack, at
which the PCB `a` and the stack of `m` are as the first one left them, continues after the first
call. -/
def ComesBack (m : Machine) (a b : UInt32) (stackA stackB : Area) (back : UInt32) : Prop :=
  ∀ m₁ eip m₂ back₂, exec contextSwitch none m = .returned m₁ eip →
    Calls m₂ stackB back₂ b a → (∀ x, (pcb a).Has x ∨ stackA.Has x → m₂.mem x = m₁.mem x) →
    ∃ m₃, exec contextSwitch none m₂ = .returned m₃ back ∧ Resumed m m₃

/-! ## What the code does -/

variable {m m' : Machine} {a b back : UInt32} {stackA stackB : Area}

theorem arguments_spec (f : Machine) : ∃ m₁,
    run [.load 44 .esp .eax, .load 48 .esp .ebx, .test .eax .eax] f = .ok m₁ ∧
    m₁.reg .eax = f.read (f.reg .esp + 44) ∧ m₁.reg .ebx = f.read (f.reg .esp + 48) ∧
    m₁.mem = f.mem :=
  ⟨_, rfl, rfl, rfl, rfl⟩

/-- The first part takes the second argument for the first one, and the word above for the second. -/
theorem entry_spec (m : Machine) : ∃ m₁, run entry m = .ok m₁ ∧
    m₁.reg .eax = m.read (m.reg .esp + 8) ∧ m₁.reg .ebx = m.read (m.reg .esp + 12) ∧
    AgreeOff W m.mem m₁.mem (m.reg .esp - 36).toNat 36 := by
  obtain ⟨m₁, hrun, heax, hebx, hmem⟩ := arguments_spec m.saved
  refine ⟨m₁, (run_pusha_pushf m _).trans hrun, heax.trans ?_, hebx.trans ?_, ?_⟩
  · exact saved_read (d := 44) (e := 8) m (by decide) (by decide) (by decide)
  · exact saved_read (d := 48) (e := 12) m (by decide) (by decide) (by decide)
  · rw [hmem]
    exact saved_agreeOff m

/-- The second part leaves with the stack pointer of the PCB in `ebx`, past ten words. -/
theorem switchToNext_spec (m : Machine) : ∃ m' eip,
    exec switchToNext none m = .returned m' eip ∧
    m'.reg .esp = m.read (m.reg .ebx) + 40 := by
  obtain ⟨m₁, hm₁, hesp₁⟩ : ∃ m₁, run switchStack m = .ok m₁ ∧
      m₁.reg .esp = m.read (m.reg .ebx + 0) := ⟨_, rfl, rfl⟩
  obtain ⟨m₂, hm₂⟩ := run_ok (show restoreNext.all Instr.valid = true by decide) m₁
  have hesp₂ : m₂.reg .esp = m₁.reg .esp := run_keeps (by decide) hm₂
  obtain ⟨m₃, hm₃, hesp₃⟩ : ∃ m₃, run leave m₂ = .ok m₃ ∧
      m₃.reg .esp = m₂.reg .esp + 4 + 32 := ⟨_, rfl, rfl⟩
  refine ⟨m₃.set .esp (m₃.reg .esp + 4), m₃.read (m₃.reg .esp), ?_, ?_⟩
  · unfold switchToNext
    rw [exec_block_ok hm₁, exec_block_ok hm₂, exec_block_ok hm₃]
    rfl
  · rw [set_reg, hesp₃, hesp₂, hesp₁, UInt32.add_zero]
    grind

/-- **What `context_switch` does to the stack pointer**: it takes the one in the record that the word
above the arguments points to.  Up to then it writes below its own frame and in the PCB that is
its second argument. -/
theorem contextSwitch_spec (m : Machine) : ∃ (m₂ m₃ : Machine) (eip : UInt32),
    exec contextSwitch none m = .returned m₃ eip ∧
    m₃.reg .esp = m₂.read (m.read (m.reg .esp + 12)) + 40 ∧
    ∀ x, ¬ InRange W (m.reg .esp - 36).toNat 36 x → ¬ (pcb (m.read (m.reg .esp + 8))).Has x →
      m₂.mem x = m.mem x := by
  obtain ⟨m₁, hm₁, heax, hebx, hmem₁⟩ := entry_spec m
  unfold contextSwitch
  rw [exec_block_ok hm₁, exec]
  by_cases hz : m₁.flags &&& ZF = 0
  · rw [if_pos hz]
    obtain ⟨m₂, hm₂⟩ := run_ok (show saveCurrent.all Instr.valid = true by decide) m₁
    have hkeep : m₂.reg .ebx = m₁.reg .ebx := run_keeps (by decide) hm₂
    have hmem₂ : AgreeOff W m₁.mem m₂.mem (m₁.reg .eax).toNat 40 :=
      run_within (by decide) (by decide) (by decide) hm₂
    obtain ⟨m₃, eip, hm₃, hesp⟩ := switchToNext_spec m₂
    rw [hkeep, hebx] at hesp
    rw [heax] at hmem₂
    refine ⟨m₂, m₃, eip, ?_, hesp, fun x hx hp => (hmem₂ x hp).trans (hmem₁ x hx)⟩
    rw [exec_block_ok hm₂]
    exact hm₃
  · rw [if_neg hz, exec_skip]
    obtain ⟨m₃, eip, hm₃, hesp⟩ := switchToNext_spec m₁
    rw [hebx] at hesp
    exact ⟨m₁, m₃, eip, hm₃, hesp, fun x hx _ => hmem₁ x hx⟩

/-- A word that `esp` can be loaded from, other than the one that would lead to `target`. -/
def stray (target : UInt32) : UInt32 := if target = 40 then 1 else 0

theorem stray_ne (target : UInt32) : stray target + 40 ≠ target := by
  unfold stray
  split
  · rename_i h
    rw [h]
    decide
  · rename_i h
    exact fun he => h (he.symm.trans (UInt32.zero_add 40))

/-- The machine at a second call, on a stack whose caller's frame begins with the address of the
word after it. -/
def secondCall (m : Machine) (e a b v : UInt32) : Machine :=
  { m with reg := fun _ => e }.writeWords e [0, b, a, e + 16, v]

theorem secondCall_length (e a b v : UInt32) : 4 * [0, b, a, e + 16, v].length ≤ W :=
  show 20 ≤ W by decide

theorem secondCall_agreeOff (m : Machine) (e a b v : UInt32) :
    AgreeOff W m.mem (secondCall m e a b v).mem e.toNat 20 :=
  writeWords_agreeOff [0, b, a, e + 16, v] { m with reg := fun _ => e } e (secondCall_length e a b v)

theorem secondCall_esp (m : Machine) (e a b v : UInt32) : (secondCall m e a b v).reg .esp = e :=
  congrFun (writeWords_reg [0, b, a, e + 16, v] { m with reg := fun _ => e } e) .esp

theorem secondCall_reads (m : Machine) (e a b v : UInt32) :
    (secondCall m e a b v).words e 3 = [0, b, a] ∧
    (secondCall m e a b v).read (e + 8) = a ∧ (secondCall m e a b v).read (e + 12) = e + 16 ∧
    (secondCall m e a b v).read (e + 16) = v := by
  have hall : (secondCall m e a b v).words e 5 = [0, b, a, e + 16, v] :=
    words_writeWords [0, b, a, e + 16, v] _ e (secondCall_length e a b v)
  have hword : ∀ j < 5, some ((secondCall m e a b v).read (e + UInt32.ofNat (4 * j))) =
      [0, b, a, e + 16, v][j]? := by
    intro j hj
    rw [← words_getElem? _ e hj, hall]
  refine ⟨?_, Option.some.inj (hword 2 (by decide)), Option.some.inj (hword 3 (by decide)),
    Option.some.inj (hword 4 (by decide))⟩
  rw [← words_take _ e (show 3 ≤ 5 by decide), hall]
  rfl

/-- **On every other stack there is a second call that does not come back** to a given place. -/
theorem second_call (m : Machine) (target : UInt32) (hl : Layout a b stackA stackB)
    (hsize : 56 ≤ stackB.size) : ∃ m₂ back₂, Calls m₂ stackB back₂ b a ∧
      (∀ x, (pcb a).Has x ∨ stackA.Has x → m₂.mem x = m.mem x) ∧
      ∀ m₃ eip, exec contextSwitch none m₂ = .returned m₃ eip → m₃.reg .esp ≠ target := by
  set e := stackB.base + 36 with he
  obtain ⟨hcall, hcurrent, hnext, hword⟩ := secondCall_reads m e a b (stray target)
  have hreg := secondCall_esp m e a b (stray target)
  have hmem := secondCall_agreeOff m e a b (stray target)
  generalize secondCall m e a b (stray target) = m₂ at *
  have hbase : e - 36 = stackB.base := by
    rw [he]
    grind
  refine ⟨m₂, 0, ⟨?_, ?_⟩, ?_, ?_⟩
  · rw [hreg]
    exact hcall
  · rw [hreg, hbase]
    intro x hx
    exact Nat.lt_of_lt_of_le hx (by omega)
  · intro x hx
    apply hmem
    intro hin
    rw [he, inRange_add_iff (by decide) (by decide)] at hin
    have hstack : stackB.Has x := Nat.lt_of_lt_of_le hin.2 hsize
    rcases hx with hx | hx
    · exact hl.pcbA.2 x hx hstack
    · exact hl.areas x hx hstack
  · intro m₃ eip hm₃
    obtain ⟨m', m'', eip', hexec, hesp, hsame⟩ := contextSwitch_spec m₂
    obtain ⟨rfl, rfl⟩ := Outcome.returned.inj (hexec.symm.trans hm₃)
    rw [hreg] at hesp hsame
    rw [hnext] at hesp
    -- neither the frame nor the PCB reaches the word that `esp` is loaded from
    have hkept : m'.read (e + 16) = m₂.read (e + 16) := by
      unfold Machine.read
      rw [load_eq_of_bytes]
      intro i hi
      have hplace : e + 16 = stackB.base + 52 := by
        rw [he]
        grind
      have hoff : offset W stackB.base.toNat (((e + 16).toNat + i) % W) = 52 + i := by
        rw [hplace]
        exact offset_word (show 52 + i < 2 ^ 32 by omega)
      apply hsame
      · rw [hbase, InRange, hoff]
        omega
      · rw [hcurrent]
        exact fun hin => hl.pcbA.2 _ hin (show offset _ _ _ < _ by rw [hoff]; omega)
    rw [hesp, hkept, hword]
    exact stray_ne target

/-- **No first call is one that every later call of the other process comes back from**, provided
that the caller's frame on the other stack has two words. -/
theorem never_comes_back (hl : Layout a b stackA stackB) (hsize : 56 ≤ stackB.size) :
    ¬ ComesBack m a b stackA stackB back := by
  intro hback
  obtain ⟨_, m₁, eip, hm₁, -⟩ := contextSwitch_spec m
  obtain ⟨m₂, back₂, hcall, hsame, hno⟩ := second_call m₁ (m.reg .esp + 4) hl hsize
  obtain ⟨m₃, hm₃, hresumed⟩ := hback m₁ eip m₂ back₂ hm₁ hcall hsame
  exact hno m₃ back hm₃ hresumed.esp

/-- A machine at `context_switch(0x1000, 0x2000)`, called from just below `0x400000`. -/
def sample : Machine :=
  { reg := fun _ => 0x8000, seg := fun _ => 0, flags := 0x202, mem := fun _ => 0 : Machine }.writeWords
    0x8000 [0x400000, 0x1000, 0x2000]

theorem sample_calls : Calls sample ⟨0x7000, 0x2000⟩ 0x400000 0x1000 0x2000 := by
  have hesp : sample.reg .esp = 0x8000 := congrFun (writeWords_reg _ _ _) _
  refine ⟨?_, ?_⟩
  · rw [hesp]
    exact words_writeWords [0x400000, 0x1000, 0x2000] _ _ (by decide)
  · rw [hesp]
    intro x hx
    have hx : (x + (2 ^ 32 - 32732)) % 2 ^ 32 < 48 := hx
    show (x + (2 ^ 32 - 28672)) % 2 ^ 32 < 8192
    omega

theorem sample_layout : Layout 0x1000 0x2000 ⟨0x7000, 0x2000⟩ ⟨0xa000, 0x1000⟩ where
  pcbs := Area.apart_of_le (by decide) (by decide)
  pcbA := ⟨Area.apart_of_le (by decide) (by decide), Area.apart_of_le (by decide) (by decide)⟩
  pcbB := ⟨Area.apart_of_le (by decide) (by decide), Area.apart_of_le (by decide) (by decide)⟩
  areas := Area.apart_of_le (by decide) (by decide)

theorem never_comes_back_run : Calls sample ⟨0x7000, 0x2000⟩ 0x400000 0x1000 0x2000 ∧
    ¬ ComesBack sample 0x1000 0x2000 ⟨0x7000, 0x2000⟩ ⟨0xa000, 0x1000⟩ 0x400000 :=
  ⟨sample_calls, never_comes_back sample_layout (by decide)⟩

/-- The second call finds `0xa034` above its arguments and takes the stack pointer from there. -/
theorem does_not_come_back : ¬ ∀ (m : Machine) (a b : UInt32) (stackA stackB : Area)
    (back : UInt32), Calls m stackA back a b → a ≠ b → Layout a b stackA stackB →
    56 ≤ stackB.size → ComesBack m a b stackA stackB back := by
  intro hall
  obtain ⟨_, m₁, eip, hm₁, -⟩ := contextSwitch_spec sample
  obtain ⟨m₂, back₂, hcall, hsame, hno⟩ :=
    second_call m₁ (sample.reg .esp + 4) sample_layout (by decide)
  obtain ⟨m₃, hm₃, hresumed⟩ := hall sample 0x1000 0x2000 _ _ _ sample_calls (by decide)
    sample_layout (by decide) m₁ eip m₂ back₂ hm₁ hcall hsame
  exact hno m₃ _ hm₃ hresumed.esp

end OSCompas.Switch.Arch
