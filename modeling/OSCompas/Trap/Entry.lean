import OSCompas.Lib.RiscV

/-!
# Trap entry (`lab3-1-sparrowos-memory-module/kernel/entry.S`)

`trap_vector` moves the stack pointer down by 256, stores `x1` to `x31` in the frame, calls
`trap_handler`, loads them again and moves the stack pointer up.

* `trapVector` — the listing;
* `FollowsConvention`, `SparesFrame` — what is asked of `trap_handler`;
* `called` — the state in which it is called, and `stored`, the registers as the frame holds them.

Principal results: `trapVector_get`, `trapVector_mem` and `trap_transparent`.
-/

set_option autoImplicit false

namespace OSCompas.Trap

open RiscV ByteMemory

/-! ## The listing -/

def saveRegisters : List Instr := [
  .sd 1 0 sp,
  .sd 2 8 sp,
  .sd 3 16 sp,
  .sd 4 24 sp,
  .sd 5 32 sp,
  .sd 6 40 sp,
  .sd 7 48 sp,
  .sd 8 56 sp,
  .sd 9 64 sp,
  .sd 10 72 sp,
  .sd 11 80 sp,
  .sd 12 88 sp,
  .sd 13 96 sp,
  .sd 14 104 sp,
  .sd 15 112 sp,
  .sd 16 120 sp,
  .sd 17 128 sp,
  .sd 18 136 sp,
  .sd 19 144 sp,
  .sd 20 152 sp,
  .sd 21 160 sp,
  .sd 22 168 sp,
  .sd 23 176 sp,
  .sd 24 184 sp,
  .sd 25 192 sp,
  .sd 26 200 sp,
  .sd 27 208 sp,
  .sd 28 216 sp,
  .sd 29 224 sp,
  .sd 30 232 sp,
  .sd 31 240 sp]

def restoreRegisters : List Instr := [
  .ld 1 0 sp,
  .ld 2 8 sp,
  .ld 3 16 sp,
  .ld 4 24 sp,
  .ld 5 32 sp,
  .ld 6 40 sp,
  .ld 7 48 sp,
  .ld 8 56 sp,
  .ld 9 64 sp,
  .ld 10 72 sp,
  .ld 11 80 sp,
  .ld 12 88 sp,
  .ld 13 96 sp,
  .ld 14 104 sp,
  .ld 15 112 sp,
  .ld 16 120 sp,
  .ld 17 128 sp,
  .ld 18 136 sp,
  .ld 19 144 sp,
  .ld 20 152 sp,
  .ld 21 160 sp,
  .ld 22 168 sp,
  .ld 23 176 sp,
  .ld 24 184 sp,
  .ld 25 192 sp,
  .ld 26 200 sp,
  .ld 27 208 sp,
  .ld 28 216 sp,
  .ld 29 224 sp,
  .ld 30 232 sp,
  .ld 31 240 sp]

/-- `trap_vector`. -/
def trapVector : List Instr :=
  [.addi sp sp (-256)] ++ saveRegisters ++ [.mv a0 sp, .call] ++ restoreRegisters ++
    [.addi sp sp 256, .sret]

/-- Where the registers are in the frame. -/
def slots : Slots := (List.finRange 31).map fun i => (i.succ, UInt64.ofNat (8 * i.val))

theorem saveRegisters_eq : saveRegisters = saves sp slots := by decide

theorem restoreRegisters_eq : restoreRegisters = loads sp slots := by decide

theorem slots_fit : slots.Fit 256 := by decide

/-- Every register but `x0` has a slot. -/
theorem mem_slots : ∀ r : Reg, r ≠ 0 → r ∈ slots.map Prod.fst := by decide

/-! ## The handler -/

/-- The registers that a function has to preserve: `sp`, `gp`, `tp` and `s0` to `s11`. -/
def preserved : List Reg := [2, 3, 4, 8, 9, 18, 19, 20, 21, 22, 23, 24, 25, 26, 27]

def FollowsConvention (handler : Machine → Machine) : Prop :=
  ∀ m, ∀ r ∈ preserved, (handler m).get r = m.get r

/-- The handler does not write to the frame at `sp`, which `a0` points to. -/
def SparesFrame (handler : Machine → Machine) : Prop :=
  ∀ m x, m.get a0 = m.get sp → InRange W (m.get sp).toNat 256 x → (handler m).mem x = m.mem x

/-! ## What the code does -/

variable {handler : Machine → Machine} {link : UInt64} {m : Machine}

/-- The stack pointer moved down by the frame. -/
def lowered (m : Machine) : Machine := m.set sp (m.get sp - 256)

/-- The state in which the handler is called. -/
def called (link : UInt64) (m : Machine) : Machine :=
  (run (.addi sp sp (-256) :: saveRegisters ++ [.mv a0 sp]) m).set ra link

theorem called_eq (link : UInt64) (m : Machine) :
    called link m = ((run (saves sp slots) (lowered m)).set a0
      ((run (saves sp slots) (lowered m)).get sp)).set ra link := by
  have hfirst : (Instr.addi sp sp (-256)).step m = lowered m := by
    show m.set sp (m.get sp + (-256)) = m.set sp (m.get sp - 256)
    rw [UInt64.sub_eq_add_neg]
  unfold called
  rw [saveRegisters_eq, List.cons_append, run, List.foldl_cons, List.foldl_append, hfirst]
  rfl

/-- The registers as the frame holds them: `sp` is stored after it has moved. -/
def stored (m : Machine) (r : Reg) : UInt64 := if r = sp then m.get sp - 256 else m.get r

theorem lowered_get (m : Machine) (r : Reg) : (lowered m).get r = stored m r := by
  unfold lowered stored
  split
  · rename_i h
    rw [h, get_set _ _ (by decide)]
  · rename_i h
    exact get_set_of_ne h

theorem called_sp (link : UInt64) (m : Machine) : (called link m).get sp = m.get sp - 256 := by
  rw [called_eq, get_set_of_ne (by decide), get_set_of_ne (by decide), run_saves_get, lowered_get]
  rfl

theorem called_a0 (link : UInt64) (m : Machine) : (called link m).get a0 = m.get sp - 256 := by
  rw [called_eq, get_set_of_ne (by decide), get_set _ _ (by decide), run_saves_get, lowered_get]
  rfl

/-- Every slot holds the register it belongs to. -/
theorem called_read (link : UInt64) (m : Machine) :
    ∀ p ∈ slots, (called link m).read (m.get sp - 256 + p.2) = stored m p.1 := by
  intro p hp
  have h := run_saves (b := sp) (show 256 ≤ W by decide) slots slots_fit (lowered m) p hp
  rw [lowered_get, lowered_get] at h
  rw [called_eq, set_read, set_read]
  exact h

/-- Until the handler is called, only the frame has been written. -/
theorem called_mem (link : UInt64) (m : Machine) :
    AgreeOff W m.mem (called link m).mem (m.get sp - 256).toNat 256 := by
  have h := run_saves_mem (b := sp) (show 256 ≤ W by decide) slots slots_fit.1 (lowered m)
  rw [lowered_get] at h
  rw [called_eq, set_mem, set_mem]
  exact h

/-- The state at `sret`. -/
theorem exec_trapVector (handler : Machine → Machine) (link : UInt64) (m : Machine) :
    exec handler link trapVector m =
      (Instr.addi sp sp 256).step (run (loads sp slots) (handler (called link m))) := by
  have hparts : trapVector = (.addi sp sp (-256) :: saveRegisters ++ [.mv a0 sp]) ++
      (.call :: (restoreRegisters ++ [.addi sp sp 256, .sret])) := rfl
  rw [hparts, exec_block _ _ (by decide)]
  show exec handler link (restoreRegisters ++ [.addi sp sp 256, .sret])
    (handler (called link m)) = _
  rw [exec_block _ _ (by decide), restoreRegisters_eq]
  rfl

/-! ## The way back -/

/-- A slot of the frame lies in the frame. -/
theorem inRange_slot {p : Reg × UInt64} (hp : p ∈ slots) {i : Nat} (hi : i < 8) (b : UInt64) :
    InRange W b.toNat 256 (((b + p.2).toNat + i) % W) := by
  have hfit := slots_fit.1 p hp
  unfold InRange
  rw [toNat_add, Nat.mod_add_mod, Nat.add_assoc,
    offset_add_mod b.toNat_lt (show p.2.toNat + i < 2 ^ 64 by omega)]
  omega

theorem handler_sp (hc : FollowsConvention handler) :
    (handler (called link m)).get sp = stored m sp := by
  rw [hc (called link m) sp (by decide), called_sp]
  rfl

/-- The handler leaves the slots as they were. -/
theorem handler_read (hf : SparesFrame handler) :
    ∀ p ∈ slots, (handler (called link m)).read (stored m sp + p.2) = stored m p.1 := by
  intro p hp
  have hargs : (called link m).get a0 = (called link m).get sp := by rw [called_a0, called_sp]
  have hkept : (handler (called link m)).read (m.get sp - 256 + p.2) =
      (called link m).read (m.get sp - 256 + p.2) := by
    apply read_of_mem
    intro i hi
    apply hf _ _ hargs
    rw [called_sp]
    exact inRange_slot hp hi _
  exact hkept.trans (called_read link m p hp)

/-- The loads give back what was stored. -/
theorem restored (link : UInt64) (m : Machine) (hc : FollowsConvention handler)
    (hf : SparesFrame handler) :
    (run (loads sp slots) (handler (called link m))).mem = (handler (called link m)).mem ∧
      ∀ r, r ≠ 0 → (run (loads sp slots) (handler (called link m))).get r = stored m r := by
  have hslot : ∀ p ∈ slots, p.1 ≠ 0 := by simp [slots, Fin.succ_ne_zero]
  obtain ⟨hmem, hget⟩ := run_loads (stored m) slots (handler (called link m)) (handler_sp hc)
    fun p hp => ⟨hslot p hp, handler_read hf p hp⟩
  exact ⟨hmem, fun r hr => hget r (.inr (mem_slots r hr))⟩

/-- **The registers are as they were on entry.** -/
theorem trapVector_get (hc : FollowsConvention handler) (hf : SparesFrame handler) (r : Reg) :
    (exec handler link trapVector m).get r = m.get r := by
  obtain ⟨-, hget⟩ := restored link m hc hf
  rw [exec_trapVector]
  show ((run (loads sp slots) (handler (called link m))).set sp
    ((run (loads sp slots) (handler (called link m))).get sp + 256)).get r = m.get r
  by_cases hr : r = sp
  · rw [hr, get_set _ _ (by decide), hget sp (by decide)]
    show m.get sp - 256 + 256 = m.get sp
    exact UInt64.sub_add_cancel _ _
  · rw [get_set_of_ne hr]
    by_cases h0 : r = 0
    · rw [h0, get_zero, get_zero]
    · rw [hget r h0]
      exact if_neg hr

/-- **The memory is as the handler left it.** -/
theorem trapVector_mem (hc : FollowsConvention handler) (hf : SparesFrame handler) :
    (exec handler link trapVector m).mem = (handler (called link m)).mem := by
  obtain ⟨hmem, -⟩ := restored link m hc hf
  rw [exec_trapVector]
  show ((run (loads sp slots) (handler (called link m))).set sp
    ((run (loads sp slots) (handler (called link m))).get sp + 256)).mem = _
  rw [set_mem, hmem]

/-- With room for the frame below the stack pointer, nothing at or above it is in the frame. -/
theorem not_inRange_frame (hm : 256 ≤ (m.get sp).toNat) {x : Nat} (hx : (m.get sp).toNat ≤ x)
    (hxW : x < W) : ¬ InRange W (m.get sp - 256).toNat 256 x := by
  have hlt : (m.get sp).toNat < 2 ^ 64 := (m.get sp).toNat_lt
  have hsub : (m.get sp - 256).toNat = (m.get sp).toNat - 256 :=
    UInt64.toNat_sub_of_le _ _ (by simpa [UInt64.le_iff_toNat_le] using hm)
  have hfar := le_offset_of_outside (W := W) (a := (m.get sp - 256).toNat) (n := 256) (x := x)
    (show _ ≤ 2 ^ 64 by omega) hxW (.inr (by omega))
  exact Nat.not_lt.mpr hfar

/-- **The trap is transparent.** Every register is as on entry, `sp` included; between entry and
`sret` the code itself writes only the 256 bytes below the stack pointer, around the end of the
address space when there is no room for them. -/
theorem trap_transparent (link : UInt64) (m : Machine) (hc : FollowsConvention handler)
    (hf : SparesFrame handler) :
    (∀ r, (exec handler link trapVector m).get r = m.get r) ∧
    AgreeOff W m.mem (called link m).mem (m.get sp - 256).toNat 256 ∧
    (exec handler link trapVector m).mem = (handler (called link m)).mem ∧
    (256 ≤ (m.get sp).toNat → ∀ x, (m.get sp).toNat ≤ x → x < W →
      (called link m).mem x = m.mem x) := by
  refine ⟨trapVector_get hc hf, called_mem link m, trapVector_mem hc hf, ?_⟩
  intro hm x hx hxW
  exact called_mem link m x (not_inRange_frame hm hx hxW)

/-- A handler that uses `a0` and the temporary `t0`. -/
def clobbers (m : Machine) : Machine := (m.set a0 7).set 5 (m.get a0)

/-- A stack pointer of `0x87fff000` and a different value in every register. -/
def trapped : Machine where
  x r := if r = sp then 0x87fff000 else r.val.toUInt64
  mem _ := 0

theorem trap_transparent_clobbers :
    FollowsConvention clobbers ∧ SparesFrame clobbers ∧
    (∀ r, (exec clobbers 0x80000100 trapVector trapped).get r = trapped.get r) ∧
    (∀ x, 0x87fff000 ≤ x → x < W → (called 0x80000100 trapped).mem x = 0) := by
  have hc : FollowsConvention clobbers := by
    intro m r hr
    have h : ∀ r ∈ preserved, r ≠ 5 ∧ r ≠ a0 := by decide
    rw [clobbers, get_set_of_ne (h r hr).1, get_set_of_ne (h r hr).2]
  have hf : SparesFrame clobbers := fun _ _ _ _ => rfl
  obtain ⟨hregs, -, -, habove⟩ := trap_transparent 0x80000100 trapped hc hf
  exact ⟨hc, hf, hregs, fun x hx hxW => habove (by decide) x hx hxW⟩

/-- A stack pointer without room for the frame below it. -/
def cornered : Machine where
  x r := if r = sp then 0 else r.val.toUInt64
  mem _ := 0

/-- The frame goes around the end of the address space, so it lies above the stack pointer. -/
theorem trap_above_sp :
    FollowsConvention id ∧ SparesFrame id ∧
    ∃ x, (cornered.get sp).toNat ≤ x ∧ x < W ∧
      (exec id 0 trapVector cornered).mem x ≠ cornered.mem x := by
  refine ⟨fun _ _ _ => rfl, fun _ _ _ _ => rfl, 2 ^ 64 - 256, Nat.zero_le _, by decide, ?_⟩
  decide +kernel

end OSCompas.Trap
