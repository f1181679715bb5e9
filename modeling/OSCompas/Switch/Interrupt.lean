import OSCompas.Switch.Arch
import OSCompas.Lib.Interrupt

/-!
# Saving and restoring an interrupted process (`kernel/arch_x86/context_switch.S`)

`interrupt_context_save` writes ten values to a PCB, with the stack laid out as its comment says;
`interrupt_context_restore` loads them from a PCB and ends with `iret`.  Both take the PCB pointer
from the word above the return address.

* `interruptContextSave`, `interruptContextRestore` — the two routines;
* `Context` — the ten values, in a PCB, at the interrupt and after the return;
* `RoundTrip` — the property.

Principal results: `interruptContextSave_spec`, `interruptContextRestore_spec` and
`round_trip_iff`.
-/

set_option autoImplicit false

namespace OSCompas.Switch.Arch

open X86 ByteMemory

/-! ## The routines -/

/-- `interrupt_context_save` up to its return. -/
def saveInterrupted : List Instr := [
  .load 4 .esp .eax,
  .store .ebx PCB_EBX_OFFSET .eax,
  .store .ecx PCB_ECX_OFFSET .eax,
  .store .edx PCB_EDX_OFFSET .eax,
  .store .esi PCB_ESI_OFFSET .eax,
  .store .edi PCB_EDI_OFFSET .eax,
  .store .ebp PCB_EBP_OFFSET .eax,
  .load 12 .esp .ebx,
  .store .ebx PCB_ESP_OFFSET .eax,
  .load 28 .esp .ebx,
  .store .ebx PCB_EIP_OFFSET .eax,
  .load 20 .esp .ebx,
  .store .ebx PCB_EFLAGS_OFFSET .eax,
  .store .eax PCB_EAX_OFFSET .eax]

/-- `interrupt_context_save`. -/
def interruptContextSave : List (Line Label) := saveInterrupted.map .instr ++ [.ret]

/-- `interrupt_context_restore` up to its `iret`. -/
def restoreInterrupted : List Op := [
  .instr (.load 4 .esp .eax),
  .instr (.load PCB_EBX_OFFSET .eax .ebx),
  .instr (.load PCB_ECX_OFFSET .eax .ecx),
  .instr (.load PCB_EDX_OFFSET .eax .edx),
  .instr (.load PCB_ESI_OFFSET .eax .esi),
  .instr (.load PCB_EDI_OFFSET .eax .edi),
  .instr (.load PCB_EBP_OFFSET .eax .ebp),
  .pushImm 0x10,
  .pushMem PCB_ESP_OFFSET .eax,
  .pushMem PCB_EFLAGS_OFFSET .eax,
  .pushImm 0x08,
  .pushMem PCB_EIP_OFFSET .eax,
  .instr (.load PCB_EAX_OFFSET .eax .eax)]

/-- `interrupt_context_restore`. -/
def interruptContextRestore (m : Machine) : Option Return :=
  (runOps restoreInterrupted m).map Machine.iret

/-! ## The property -/

/-- The values that are saved and restored. -/
structure Context where
  eax : UInt32
  ebx : UInt32
  ecx : UInt32
  edx : UInt32
  esi : UInt32
  edi : UInt32
  ebp : UInt32
  esp : UInt32
  eip : UInt32
  eflags : UInt32
  deriving DecidableEq, Repr

/-- The context in the PCB at `p`. -/
def contextAt (m : Machine) (p : UInt32) : Context where
  eax := m.read (p + PCB_EAX_OFFSET)
  ebx := m.read (p + PCB_EBX_OFFSET)
  ecx := m.read (p + PCB_ECX_OFFSET)
  edx := m.read (p + PCB_EDX_OFFSET)
  esi := m.read (p + PCB_ESI_OFFSET)
  edi := m.read (p + PCB_EDI_OFFSET)
  ebp := m.read (p + PCB_EBP_OFFSET)
  esp := m.read (p + PCB_ESP_OFFSET)
  eip := m.read (p + PCB_EIP_OFFSET)
  eflags := m.read (p + PCB_EFLAGS_OFFSET)

/-- The context of the interrupted process when `interrupt_context_save` is entered: its general
registers are still there, the rest is on the stack. -/
def interrupted (m : Machine) : Context where
  eax := m.reg .eax
  ebx := m.reg .ebx
  ecx := m.reg .ecx
  edx := m.reg .edx
  esi := m.reg .esi
  edi := m.reg .edi
  ebp := m.reg .ebp
  esp := m.read (m.reg .esp + 12)
  eip := m.read (m.reg .esp + 28)
  eflags := m.read (m.reg .esp + 20)

/-- The context that execution goes on with at `eip`. -/
def running (m : Machine) (eip : UInt32) : Context where
  eax := m.reg .eax
  ebx := m.reg .ebx
  ecx := m.reg .ecx
  edx := m.reg .edx
  esi := m.reg .esi
  edi := m.reg .edi
  ebp := m.reg .ebp
  esp := m.reg .esp
  eip := eip
  eflags := m.flags

/-- `m` is at the entry of `interrupt_context_save`, with the PCB apart from the eight words of the
stack. -/
structure Saves (m : Machine) (p : UInt32) : Prop where
  pointer : m.read (m.reg .esp + 4) = p
  apart : (pcb p).Apart ⟨m.reg .esp, 32⟩

/-- `m` is at the entry of `interrupt_context_restore`, with the PCB apart from the two words of the
stack and the five below. -/
structure Restores (m : Machine) (p : UInt32) : Prop where
  pointer : m.read (m.reg .esp + 4) = p
  apart : (pcb p).Apart ⟨m.reg .esp - 20, 28⟩

/-- **`interrupt_context_restore` in `m₂` resumes the process** that was interrupted in `m`. -/
def RoundTrip (m m₂ : Machine) : Prop :=
  ∃ m₃ eip, interruptContextRestore m₂ = some (.resumed m₃ eip) ∧ running m₃ eip = interrupted m

variable {m m' m₁ m₂ m₃ : Machine} {p d eip : UInt32} {n : Nat} {ws : List (UInt32 × UInt32)}

/-! ## What the routines do -/

/-- The bytes of a word of an area. -/
theorem has_word {s : Area} (hd : d.toNat + 4 ≤ s.size) (hs : s.size ≤ W) {i : Nat} (hi : i < 4) :
    s.Has (((s.base + d).toNat + i) % W) := by
  show offset W s.base.toNat _ < s.size
  rw [offset_word (show d.toNat + i < W by omega)]
  omega

/-- A word of an area is not changed by writes in another one. -/
theorem read_apart {r s : Area} (h : r.Apart s) (hm : AgreeOff W m.mem m'.mem r.base.toNat r.size)
    (hd : d.toNat + 4 ≤ s.size) (hs : s.size ≤ W) : m'.read (s.base + d) = m.read (s.base + d) :=
  read_of_agreeOff hm fun _ hi hin => h _ hin (has_word hd hs hi)

/-- The places of a PCB. -/
theorem spread_pcb (esp eip eflags eax ebx ecx edx esi edi ebp : UInt32) :
    Spread 40 [(PCB_EBX_OFFSET, ebx), (PCB_ECX_OFFSET, ecx), (PCB_EDX_OFFSET, edx),
      (PCB_ESI_OFFSET, esi), (PCB_EDI_OFFSET, edi), (PCB_EBP_OFFSET, ebp), (PCB_ESP_OFFSET, esp),
      (PCB_EIP_OFFSET, eip), (PCB_EFLAGS_OFFSET, eflags), (PCB_EAX_OFFSET, eax)] := by
  refine ⟨?_, ?_⟩
  · simp
  · simp [Beside]

/-- What `interrupt_context_save` writes to the PCB `p` in this order. -/
def savedWords (m : Machine) (p : UInt32) : List (UInt32 × UInt32) := [
  (PCB_EBX_OFFSET, m.reg .ebx),
  (PCB_ECX_OFFSET, m.reg .ecx),
  (PCB_EDX_OFFSET, m.reg .edx),
  (PCB_ESI_OFFSET, m.reg .esi),
  (PCB_EDI_OFFSET, m.reg .edi),
  (PCB_EBP_OFFSET, m.reg .ebp),
  (PCB_ESP_OFFSET, m.read (m.reg .esp + 12)),
  (PCB_EIP_OFFSET, m.read (m.reg .esp + 28)),
  (PCB_EFLAGS_OFFSET, m.read (m.reg .esp + 20)),
  (PCB_EAX_OFFSET, p)]

/-- The code has written the words `ws` to the PCB `p`. -/
structure Saving (m : Machine) (p : UInt32) (ws : List (UInt32 × UInt32)) (a : Machine) : Prop where
  esp : a.reg .esp = m.reg .esp
  eax : a.reg .eax = p
  mem : a.mem = (m.put p ws).mem

/-- The stack is still there. -/
theorem Saving.stack (ha : Saving m p ws m') (h : Saves m p) (hw : ∀ w ∈ ws, w.1.toNat + 4 ≤ 40)
    (hd : d.toNat + 4 ≤ 32) : m'.read (m.reg .esp + d) = m.read (m.reg .esp + d) := by
  have hmem : AgreeOff W m.mem m'.mem p.toNat 40 := by
    rw [ha.mem]
    exact put_agreeOff (by decide) hw
  exact read_apart (r := pcb p) (s := ⟨m.reg .esp, 32⟩) h.apart hmem hd (show 32 ≤ W by decide)

/-- A word of the stack is copied to the PCB, through `ebx`. -/
theorem Saving.copy {e : UInt32} (ha : Saving m p ws m') (is : List Instr) (h : Saves m p)
    (hw : ∀ w ∈ ws, w.1.toNat + 4 ≤ 40) (hd : d.toNat + 4 ≤ 32) : ∃ b,
    run (.load d .esp .ebx :: .store .ebx e .eax :: is) m' = run is b ∧
      Saving m p (ws ++ [(e, m.read (m.reg .esp + d))]) b := by
  have hread := ha.stack h hw hd
  have hstore : ((m'.set .ebx (m'.read (m'.reg .esp + d))).write (m'.reg .eax + e) 4
      (m'.read (m'.reg .esp + d)).toNat).mem =
      ((m.put p ws).write (p + e) 4 (m.read (m.reg .esp + d)).toNat).mem := by
    rw [ha.esp, ha.eax, hread]
    show ByteMemory.store W m'.mem _ _ _ = _
    rw [ha.mem]
    rfl
  refine ⟨_, rfl, ha.esp, ha.eax, ?_⟩
  rw [put_concat]
  exact hstore

/-- The memory that `interrupt_context_save` leaves. -/
theorem saveInterrupted_mem (h : Saves m p) : ∃ m₁, run saveInterrupted m = .ok m₁ ∧
    Saving m p (savedWords m p) m₁ := by
  have hfits : ∀ k, ∀ w ∈ (savedWords m p).take k, w.1.toNat + 4 ≤ 40 := fun k w hw =>
    (spread_pcb ..).fits w (List.mem_of_mem_take hw)
  have hp := h.pointer
  obtain ⟨m₁, hm₁, hs₁⟩ : ∃ m₁, run saveInterrupted m = run (saveInterrupted.drop 7) m₁ ∧
      Saving m p ((savedWords m p).take 6) m₁ := by
    refine ⟨_, rfl, rfl, hp, ?_⟩
    rw [← hp]
    rfl
  obtain ⟨m₂, hm₂, hs₂⟩ := hs₁.copy (saveInterrupted.drop 9) (e := PCB_ESP_OFFSET) h
    (hfits 6) (d := 12) (by decide)
  obtain ⟨m₃, hm₃, hs₃⟩ := hs₂.copy (saveInterrupted.drop 11) (e := PCB_EIP_OFFSET) h
    (hfits 7) (d := 28) (by decide)
  obtain ⟨m₄, hm₄, hs₄⟩ := hs₃.copy (saveInterrupted.drop 13) (e := PCB_EFLAGS_OFFSET) h
    (hfits 8) (d := 20) (by decide)
  refine ⟨m₄.write (m₄.reg .eax + PCB_EAX_OFFSET) 4 (m₄.reg .eax).toNat,
    hm₁.trans (hm₂.trans (hm₃.trans (hm₄.trans rfl))), hs₄.esp, hs₄.eax, ?_⟩
  rw [hs₄.eax]
  show ByteMemory.store W m₄.mem _ _ _ = _
  rw [hs₄.mem]
  rfl

/-- **What `interrupt_context_save` leaves in the PCB**: the context, but for `eax`, which holds the
PCB pointer when it is saved. -/
theorem interruptContextSave_spec (h : Saves m p) : ∃ m₁ eip,
    exec interruptContextSave none m = .returned m₁ eip ∧
      contextAt m₁ p = { interrupted m with eax := p } := by
  obtain ⟨m₁, hm₁, hs⟩ := saveInterrupted_mem h
  have hword : ∀ d v, (d, v) ∈ savedWords m p → m₁.read (p + d) = v := by
    intro d v hw
    have hread := read_put (m := m) (a := p) (by decide) (spread_pcb ..) hw
    unfold Machine.read
    rw [hs.mem]
    exact hread
  refine ⟨m₁.set .esp (m₁.reg .esp + 4), m₁.read (m₁.reg .esp), ?_, ?_⟩
  · unfold interruptContextSave
    rw [exec_block_ok hm₁]
    rfl
  · unfold contextAt interrupted
    simp only [set_read]
    rw [hword PCB_EAX_OFFSET p (by simp [savedWords]),
      hword PCB_EBX_OFFSET (m.reg .ebx) (by simp [savedWords]),
      hword PCB_ECX_OFFSET (m.reg .ecx) (by simp [savedWords]),
      hword PCB_EDX_OFFSET (m.reg .edx) (by simp [savedWords]),
      hword PCB_ESI_OFFSET (m.reg .esi) (by simp [savedWords]),
      hword PCB_EDI_OFFSET (m.reg .edi) (by simp [savedWords]),
      hword PCB_EBP_OFFSET (m.reg .ebp) (by simp [savedWords]),
      hword PCB_ESP_OFFSET (m.read (m.reg .esp + 12)) (by simp [savedWords]),
      hword PCB_EIP_OFFSET (m.read (m.reg .esp + 28)) (by simp [savedWords]),
      hword PCB_EFLAGS_OFFSET (m.read (m.reg .esp + 20)) (by simp [savedWords])]

/-- The registers that are loaded from the PCB. -/
structure Loaded (m : Machine) (p : UInt32) (b : Machine) : Prop where
  ebx : b.reg .ebx = m.read (p + PCB_EBX_OFFSET)
  ecx : b.reg .ecx = m.read (p + PCB_ECX_OFFSET)
  edx : b.reg .edx = m.read (p + PCB_EDX_OFFSET)
  esi : b.reg .esi = m.read (p + PCB_ESI_OFFSET)
  edi : b.reg .edi = m.read (p + PCB_EDI_OFFSET)
  ebp : b.reg .ebp = m.read (p + PCB_EBP_OFFSET)
  seg : b.seg = m.seg
  flags : b.flags = m.flags

/-- `esp` and `eax` are not among them. -/
theorem Loaded.keep (h : Loaded m p m₁)
    (hreg : ∀ r : Reg, r ≠ .esp → r ≠ .eax → m₂.reg r = m₁.reg r) (hseg : m₂.seg = m₁.seg)
    (hflags : m₂.flags = m₁.flags) : Loaded m p m₂ where
  ebx := (hreg .ebx (by simp) (by simp)).trans h.ebx
  ecx := (hreg .ecx (by simp) (by simp)).trans h.ecx
  edx := (hreg .edx (by simp) (by simp)).trans h.edx
  esi := (hreg .esi (by simp) (by simp)).trans h.esi
  edi := (hreg .edi (by simp) (by simp)).trans h.edi
  ebp := (hreg .ebp (by simp) (by simp)).trans h.ebp
  seg := hseg.trans h.seg
  flags := hflags.trans h.flags

theorem Loaded.push (h : Loaded m p m') (v : UInt32) : Loaded m p (m'.push v) :=
  h.keep (fun _ hesp _ => push_reg m' v hesp) rfl rfl

theorem Loaded.set (h : Loaded m p m') (v : UInt32) : Loaded m p (m'.set .eax v) :=
  h.keep (fun _ _ heax => set_reg_of_ne heax) rfl rfl

/-- The code has loaded the registers and pushed the words `ws`, at their distances from the frame
of the return; the last one is at `d`. -/
structure Framing (m : Machine) (p : UInt32) (ws : List (UInt32 × UInt32)) (d : UInt32)
    (b : Machine) : Prop extends Loaded m p b where
  esp : b.reg .esp = m.reg .esp - 20 + d
  eax : b.reg .eax = p
  mem : b.mem = (m.put (m.reg .esp - 20) ws).mem

theorem Framing.push (hf : Framing m p ws (d + 4) m') (v : UInt32) :
    Framing m p (ws ++ [(d, v)]) d (m'.push v) := by
  have hplace : m'.reg .esp - 4 = m.reg .esp - 20 + d := by
    rw [hf.esp]
    grind
  refine ⟨hf.toLoaded.push v, ?_, (push_reg m' v (by decide)).trans hf.eax, ?_⟩
  · rw [← hplace]
    exact set_reg m' .esp _
  · rw [put_concat]
    show ByteMemory.store W m'.mem (m'.reg .esp - 4).toNat 4 v.toNat = _
    rw [hplace, hf.mem]
    rfl

/-- The PCB is still there. -/
theorem Framing.pcb {e : UInt32} (hf : Framing m p ws d m') (h : Restores m p)
    (hw : ∀ w ∈ ws, w.1.toNat + 4 ≤ 20) (he : e.toNat + 4 ≤ 40) :
    m'.read (m'.reg .eax + e) = m.read (p + e) := by
  have hmem : AgreeOff W m.mem m'.mem (m.reg .esp - 20).toNat 20 := by
    rw [hf.mem]
    exact put_agreeOff (by decide) hw
  have hapart : Area.Apart ⟨m.reg .esp - 20, 20⟩ (Arch.pcb p) := fun x hx hx' =>
    h.apart x hx' (Nat.lt_of_lt_of_le hx (show 20 ≤ 28 by decide))
  rw [hf.eax]
  exact read_apart (s := Arch.pcb p) hapart hmem he (show 40 ≤ W by decide)

/-- A constant is pushed. -/
theorem Framing.pushImm (hf : Framing m p ws (d + 4) m') (v : UInt32) (is : List Op) : ∃ b,
    runOps (.pushImm v :: is) m' = runOps is b ∧ Framing m p (ws ++ [(d, v)]) d b :=
  ⟨m'.push v, rfl, hf.push v⟩

/-- A word of the PCB is pushed. -/
theorem Framing.pushMem {e : UInt32} (hf : Framing m p ws (d + 4) m') (is : List Op)
    (h : Restores m p) (hw : ∀ w ∈ ws, w.1.toNat + 4 ≤ 20) (he : e.toNat + 4 ≤ 40) : ∃ b,
    runOps (.pushMem e .eax :: is) m' = runOps is b ∧
      Framing m p (ws ++ [(d, m.read (p + e))]) d b := by
  refine ⟨m'.push (m'.read (m'.reg .eax + e)), rfl, ?_⟩
  rw [hf.pcb h hw he]
  exact hf.push _

/-- The registers after the loads from the PCB. -/
def afterLoads (m : Machine) (p : UInt32) : Machine :=
  ((((((m.set .eax p).set .ebx (m.read (p + PCB_EBX_OFFSET))).set .ecx
    (m.read (p + PCB_ECX_OFFSET))).set .edx (m.read (p + PCB_EDX_OFFSET))).set .esi
    (m.read (p + PCB_ESI_OFFSET))).set .edi (m.read (p + PCB_EDI_OFFSET))).set .ebp
    (m.read (p + PCB_EBP_OFFSET))

theorem afterLoads_loaded (m : Machine) (p : UInt32) : Loaded m p (afterLoads m p) where
  ebx := by simp [afterLoads, set_reg_of_ne]
  ecx := by simp [afterLoads, set_reg_of_ne]
  edx := by simp [afterLoads, set_reg_of_ne]
  esi := by simp [afterLoads, set_reg_of_ne]
  edi := by simp [afterLoads, set_reg_of_ne]
  ebp := by simp [afterLoads]
  seg := rfl
  flags := rfl

theorem afterLoads_framing (m : Machine) (p : UInt32) :
    Framing m p [] (16 + 4) (afterLoads m p) where
  toLoaded := afterLoads_loaded m p
  esp := by
    simp only [afterLoads, set_reg_of_ne, ne_eq, reduceCtorEq, not_false_eq_true]
    grind
  eax := by simp [afterLoads, set_reg_of_ne]
  mem := rfl

theorem runOps_loads (h : m.read (m.reg .esp + 4) = p) : runOps restoreInterrupted m =
    runOps (restoreInterrupted.drop 7) (afterLoads m p) := by
  simp [restoreInterrupted, runOps, Op.step, Instr.step, afterLoads, set_reg_of_ne, h]

/-- The frame that `interrupt_context_restore` prepares for `iret`. -/
def frameWords (m : Machine) (p : UInt32) : List (UInt32 × UInt32) := [
  (16, 0x10),
  (12, m.read (p + PCB_ESP_OFFSET)),
  (8, m.read (p + PCB_EFLAGS_OFFSET)),
  (4, 0x08),
  (0, m.read (p + PCB_EIP_OFFSET))]

theorem spread_frame (m : Machine) (p : UInt32) : Spread 20 (frameWords m p) := by
  refine ⟨?_, ?_⟩
  · simp [frameWords]
  · simp [frameWords, Beside]

/-- The machine before `eax` is loaded. -/
theorem restoreInterrupted_frame (h : Restores m p) : ∃ b,
    runOps restoreInterrupted m = runOps (restoreInterrupted.drop 12) b ∧
      Framing m p (frameWords m p) 0 b := by
  have hfits : ∀ k, ∀ w ∈ (frameWords m p).take k, w.1.toNat + 4 ≤ 20 := fun k w hw =>
    (spread_frame m p).fits w (List.mem_of_mem_take hw)
  have hf₁ := afterLoads_framing m p
  obtain ⟨b₂, hb₂, hf₂⟩ := hf₁.pushImm (d := 12 + 4) 0x10 (restoreInterrupted.drop 8)
  obtain ⟨b₃, hb₃, hf₃⟩ := hf₂.pushMem (d := 8 + 4) (e := PCB_ESP_OFFSET)
    (restoreInterrupted.drop 9) h (hfits 1) (by decide)
  obtain ⟨b₄, hb₄, hf₄⟩ := hf₃.pushMem (d := 4 + 4) (e := PCB_EFLAGS_OFFSET)
    (restoreInterrupted.drop 10) h (hfits 2) (by decide)
  obtain ⟨b₅, hb₅, hf₅⟩ := hf₄.pushImm (d := 0 + 4) 0x08 (restoreInterrupted.drop 11)
  obtain ⟨b₆, hb₆, hf₆⟩ := hf₅.pushMem (d := 0) (e := PCB_EIP_OFFSET)
    (restoreInterrupted.drop 12) h (hfits 4) (by decide)
  refine ⟨b₆, ?_, hf₆⟩
  rw [runOps_loads h.pointer]
  exact hb₂.trans (hb₃.trans (hb₄.trans (hb₅.trans hb₆)))

/-- The machine at the `iret`. -/
theorem restoreInterrupted_spec (h : Restores m p) : ∃ b, runOps restoreInterrupted m = some b ∧
    Loaded m p b ∧ b.reg .eax = m.read (p + PCB_EAX_OFFSET) ∧ b.reg .esp = m.reg .esp - 20 ∧
    ∀ d v, (d, v) ∈ frameWords m p → b.read (b.reg .esp + d) = v := by
  obtain ⟨b, hb, hf⟩ := restoreInterrupted_frame h
  have heax := hf.pcb (e := PCB_EAX_OFFSET) h (spread_frame m p).fits (by decide)
  have hesp : (b.set .eax (b.read (b.reg .eax + PCB_EAX_OFFSET))).reg .esp = m.reg .esp - 20 := by
    rw [set_reg_of_ne (by decide), hf.esp, UInt32.add_zero]
  refine ⟨_, hb, hf.toLoaded.set _, (set_reg _ _ _).trans heax, hesp, ?_⟩
  intro d v hw
  have hread := read_put (m := m) (a := m.reg .esp - 20) (by decide) (spread_frame m p) hw
  rw [hesp, set_read]
  unfold Machine.read at hread ⊢
  rw [hf.mem]
  exact hread

/-- The code segment of the frame has privilege level 0. -/
theorem frame_level (hword : ∀ d v, (d, v) ∈ frameWords m p → m'.read (m'.reg .esp + d) = v) :
    m'.read16 (m'.reg .esp + 4) &&& 3 = 0 := by
  rw [read16_eq, hword 4 0x08 (by simp [frameWords])]
  rfl

/-- **What `interrupt_context_restore` loads**: the context in the PCB, but for `esp`, which ends up
above the return address and the argument. -/
theorem interruptContextRestore_spec (h : Restores m p) (hcpl : m.seg .cs &&& 3 = 0)
    (hnt : m.flags &&& NT = 0) (hvm : (contextAt m p).eflags &&& VM = 0) : ∃ m₃ eip,
    interruptContextRestore m = some (.resumed m₃ eip) ∧
      running m₃ eip = { contextAt m p with esp := m.reg .esp - 8 } := by
  obtain ⟨b, hb, hl, heax, hesp, hword⟩ := restoreInterrupted_spec h
  have hflags : b.read (b.reg .esp + 8) = (contextAt m p).eflags :=
    hword 8 _ (by simp [frameWords, contextAt])
  have heip : b.read (b.reg .esp + 0) = (contextAt m p).eip :=
    hword 0 _ (by simp [frameWords, contextAt])
  rw [UInt32.add_zero] at heip
  obtain ⟨m₃, hm₃, hreg, hfl⟩ := iret_resumed (m := b) (by rw [hl.seg]; exact hcpl)
    (frame_level hword) (by rw [hl.flags]; exact hnt) (by rw [hflags]; exact hvm)
  have hother : ∀ r, r ≠ .esp → m₃.reg r = b.reg r := fun r hr => by
    rw [hreg]
    exact Function.update_of_ne hr _ _
  have htop : m₃.reg .esp = m.reg .esp - 8 := by
    rw [hreg, Function.update_self, hesp]
    grind
  refine ⟨m₃, b.read (b.reg .esp), ?_, ?_⟩
  · unfold interruptContextRestore
    rw [hb, Option.map_some, hm₃]
  · unfold running
    rw [hother .eax (by simp), hother .ebx (by simp), hother .ecx (by simp), hother .edx (by simp),
      hother .esi (by simp), hother .edi (by simp), hother .ebp (by simp), htop, hfl, heip, hflags,
      heax, hl.ebx, hl.ecx, hl.edx, hl.esi, hl.edi, hl.ebp]
    rfl

/-- It resumes nothing in a nested task, with the flags of a virtual-8086 task, or above level 0. -/
theorem interruptContextRestore_only (h : Restores m p)
    (hr : interruptContextRestore m = some (.resumed m₃ eip)) :
    m.seg .cs &&& 3 = 0 ∧ m.flags &&& NT = 0 ∧ (contextAt m p).eflags &&& VM = 0 := by
  obtain ⟨b, hb, hl, -, -, hword⟩ := restoreInterrupted_spec h
  have hflags : b.read (b.reg .esp + 8) = (contextAt m p).eflags :=
    hword 8 _ (by simp [frameWords, contextAt])
  unfold interruptContextRestore at hr
  rw [hb, Option.map_some] at hr
  have hthere := iret_elsewhere (frame_level hword) (Option.some.inj hr)
  rw [hl.seg, hl.flags, hflags] at hthere
  exact hthere

/-! ## The round trip -/

/-- The context of a PCB that is left alone. -/
theorem contextAt_of_same (h : ∀ x, (pcb p).Has x → m'.mem x = m.mem x) :
    contextAt m' p = contextAt m p := by
  have hread : ∀ d : UInt32, d.toNat + 4 ≤ 40 → m'.read (p + d) = m.read (p + d) := by
    intro d hd
    unfold Machine.read
    rw [load_eq_of_bytes]
    exact fun i hi => h _ (has_word (s := pcb p) hd (show 40 ≤ W by decide) hi)
  unfold contextAt
  rw [hread _ (by simp), hread _ (by simp), hread _ (by simp), hread _ (by simp), hread _ (by simp),
    hread _ (by simp), hread _ (by simp), hread _ (by simp), hread _ (by simp), hread _ (by simp)]

/-- The PCB when the process is restored. -/
theorem contextAt_later (h : Saves m p)
    (hsave : exec interruptContextSave none m = .returned m₁ eip)
    (hsame : ∀ x, (pcb p).Has x → m₂.mem x = m₁.mem x) :
    contextAt m₂ p = { interrupted m with eax := p } := by
  obtain ⟨m₁', eip', hexec, hsaved⟩ := interruptContextSave_spec h
  obtain ⟨rfl, rfl⟩ := Outcome.returned.inj (hexec.symm.trans hsave)
  exact (contextAt_of_same hsame).trans hsaved

/-- A process that is resumed as it was interrupted. -/
theorem RoundTrip.needs (hr : RoundTrip m m₂) (h₂ : Restores m₂ p)
    (hpcb : contextAt m₂ p = { interrupted m with eax := p }) :
    m.reg .eax = p ∧ (interrupted m).esp = m₂.reg .esp - 8 ∧
      m₂.seg .cs &&& 3 = 0 ∧ m₂.flags &&& NT = 0 ∧ (interrupted m).eflags &&& VM = 0 := by
  obtain ⟨m₃, eip₃, hrun, heq⟩ := hr
  obtain ⟨hcpl, hnt, hvm⟩ := interruptContextRestore_only h₂ hrun
  obtain ⟨m₄, eip₄, hrun', hctx⟩ := interruptContextRestore_spec h₂ hcpl hnt hvm
  obtain ⟨rfl, rfl⟩ := Return.resumed.inj (Option.some.inj (hrun'.symm.trans hrun))
  rw [heq, hpcb] at hctx
  rw [hpcb] at hvm
  exact ⟨congrArg Context.eax hctx, congrArg Context.esp hctx, hcpl, hnt, hvm⟩

/-- **The process is resumed as it was interrupted** just if `eax` happened to hold the PCB pointer
and the stack pointer is the one the return ends up with, in the kernel and without the two flags
that lead elsewhere. -/
theorem round_trip_iff (h : Saves m p) (hsave : exec interruptContextSave none m = .returned m₁ eip)
    (h₂ : Restores m₂ p) (hsame : ∀ x, (pcb p).Has x → m₂.mem x = m₁.mem x) :
    RoundTrip m m₂ ↔ m.reg .eax = p ∧ (interrupted m).esp = m₂.reg .esp - 8 ∧
      m₂.seg .cs &&& 3 = 0 ∧ m₂.flags &&& NT = 0 ∧ (interrupted m).eflags &&& VM = 0 := by
  have hpcb := contextAt_later h hsave hsame
  constructor
  · exact fun hr => hr.needs h₂ hpcb
  · rintro ⟨heax, hesp, hcpl, hnt, hvm⟩
    have hflags : (contextAt m₂ p).eflags = (interrupted m).eflags := by rw [hpcb]
    rw [← hflags] at hvm
    obtain ⟨m₃, eip₃, hrun, hctx⟩ := interruptContextRestore_spec h₂ hcpl hnt hvm
    refine ⟨m₃, eip₃, hrun, ?_⟩
    rw [hctx, hpcb, ← hesp, ← heax]
    rfl

/-- A process is interrupted at `0x500000` with `0x9000` in `esp` and `eax` in its register; its PCB
is at `0x1000`. -/
def interruptedWith (eax : UInt32) : Machine :=
  { reg := fun | .esp => 0x8000 | .eax => eax | _ => 0, seg := fun _ => 0x08, flags := 2,
    mem := fun _ => 0 : Machine }.writeWords
    0x8000 [0x400000, 0x1000, 0x20, 0x9000, 0x10, 0x202, 0x08, 0x500000]

theorem interruptedWith_reg (eax : UInt32) :
    (interruptedWith eax).reg .esp = 0x8000 ∧ (interruptedWith eax).reg .eax = eax := by
  unfold interruptedWith
  rw [writeWords_reg]
  exact ⟨rfl, rfl⟩

/-- The words of its stack. -/
theorem interruptedWith_word {j : Nat} {v : UInt32} (eax : UInt32) (hj : j < 8)
    (hv : [0x400000, 0x1000, 0x20, 0x9000, 0x10, 0x202, 0x08, 0x500000][j]? = some v) :
    (interruptedWith eax).read (0x8000 + UInt32.ofNat (4 * j)) = v := by
  apply Option.some.inj
  rw [← hv, ← words_getElem? _ 0x8000 hj]
  exact congrArg (·[j]?) (words_writeWords _ _ 0x8000 (show 32 ≤ W by decide))

theorem interruptedWith_saves (eax : UInt32) : Saves (interruptedWith eax) 0x1000 := by
  have hesp := (interruptedWith_reg eax).1
  refine ⟨?_, ?_⟩
  · rw [hesp]
    exact interruptedWith_word (j := 1) eax (by decide) rfl
  · rw [hesp]
    exact Area.apart_of_le (by decide) (by decide)

theorem interruptedWith_stack (eax : UInt32) : (interrupted (interruptedWith eax)).esp = 0x9000 ∧
    (interrupted (interruptedWith eax)).eflags = 0x202 := by
  unfold interrupted
  rw [(interruptedWith_reg eax).1]
  exact ⟨interruptedWith_word (j := 3) eax (by decide) rfl,
    interruptedWith_word (j := 5) eax (by decide) rfl⟩

/-- Its context is restored with `0x9008` in `esp`. -/
def restoring (m₁ : Machine) : Machine :=
  { m₁ with reg := fun _ => 0x9008, seg := fun _ => 0x08, flags := 2 }.writeWords
    0x9008 [0x400100, 0x1000]

theorem restoring_esp (m₁ : Machine) : (restoring m₁).reg .esp = 0x9008 :=
  congrFun (writeWords_reg _ _ _) _

theorem restoring_kernel (m₁ : Machine) :
    (restoring m₁).seg .cs &&& 3 = 0 ∧ (restoring m₁).flags &&& NT = 0 := by
  unfold restoring
  rw [writeWords_seg, writeWords_flags]
  exact ⟨show (0x08 : UInt16) &&& 3 = 0 by decide, show (2 : UInt32) &&& NT = 0 by decide⟩

theorem restoring_restores (m₁ : Machine) : Restores (restoring m₁) 0x1000 := by
  have hwords := words_writeWords [0x400100, 0x1000]
    { m₁ with reg := fun _ => 0x9008, seg := fun _ => 0x08, flags := 2 } 0x9008
    (show 8 ≤ W by decide)
  refine ⟨?_, ?_⟩
  · rw [restoring_esp]
    apply Option.some.inj
    exact (words_getElem? _ 0x9008 (show 1 < 2 by decide)).symm.trans (congrArg (·[1]?) hwords)
  · rw [restoring_esp]
    exact Area.apart_of_le (by decide) (by decide)

theorem restoring_same (m₁ : Machine) {x : Nat} (hx : (pcb 0x1000).Has x) :
    (restoring m₁).mem x = m₁.mem x := by
  have hagree := writeWords_agreeOff [0x400100, 0x1000]
    { m₁ with reg := fun _ => 0x9008, seg := fun _ => 0x08, flags := 2 } 0x9008
    (show 8 ≤ W by decide)
  apply hagree
  have hapart : (pcb 0x1000).Apart ⟨0x9008, 8⟩ := Area.apart_of_le (by decide) (by decide)
  exact hapart x hx

/-- All but `eax` is resumed. -/
theorem restoring_rest (m₁ : Machine) (eax : UInt32) :
    (interrupted (interruptedWith eax)).esp = (restoring m₁).reg .esp - 8 ∧
    (restoring m₁).seg .cs &&& 3 = 0 ∧ (restoring m₁).flags &&& NT = 0 ∧
    (interrupted (interruptedWith eax)).eflags &&& VM = 0 := by
  obtain ⟨hesp, hflags⟩ := interruptedWith_stack eax
  rw [hesp, restoring_esp, hflags]
  exact ⟨rfl, (restoring_kernel m₁).1, (restoring_kernel m₁).2, by decide⟩

theorem round_trip_iff_pointer : ∃ m₁ eip,
    exec interruptContextSave none (interruptedWith 0x1000) = .returned m₁ eip ∧
    RoundTrip (interruptedWith 0x1000) (restoring m₁) := by
  obtain ⟨m₁, eip, hm₁, -⟩ := interruptContextSave_spec (interruptedWith_saves 0x1000)
  exact ⟨m₁, eip, hm₁, (round_trip_iff (interruptedWith_saves _) hm₁ (restoring_restores m₁)
    fun x hx => restoring_same m₁ hx).mpr ⟨(interruptedWith_reg _).2, restoring_rest m₁ _⟩⟩

/-- With 5 in `eax` the process is resumed with `0x1000` there. -/
theorem eax_is_lost : ¬ ∀ (m m₁ m₂ : Machine) (p eip : UInt32), Saves m p →
    exec interruptContextSave none m = .returned m₁ eip → Restores m₂ p →
    (∀ x, (pcb p).Has x → m₂.mem x = m₁.mem x) →
    (interrupted m).esp = m₂.reg .esp - 8 ∧ m₂.seg .cs &&& 3 = 0 ∧ m₂.flags &&& NT = 0 ∧
      (interrupted m).eflags &&& VM = 0 → RoundTrip m m₂ := by
  intro hall
  obtain ⟨m₁, eip, hm₁, -⟩ := interruptContextSave_spec (interruptedWith_saves 5)
  have hsame : ∀ x, (pcb 0x1000).Has x → (restoring m₁).mem x = m₁.mem x := fun x hx =>
    restoring_same m₁ hx
  have hr := hall (interruptedWith 5) m₁ (restoring m₁) 0x1000 eip (interruptedWith_saves 5) hm₁
    (restoring_restores m₁) hsame (restoring_rest m₁ 5)
  have heax := (hr.needs (restoring_restores m₁)
    (contextAt_later (interruptedWith_saves 5) hm₁ hsame)).1
  rw [(interruptedWith_reg 5).2] at heax
  exact absurd heax (by decide)

end OSCompas.Switch.Arch
