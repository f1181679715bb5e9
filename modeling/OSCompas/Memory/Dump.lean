import OSCompas.Memory.Safety

/-!
# `memory_dump`

The scan of `memory_dump` goes through the heap in steps of 8 bytes and takes every 0xAB it meets at
offset 8 for the magic number of a `block_header_t`.

* `memoryDump` — the lines it prints for blocks;
* `NoFalseHeader` — no such byte lies off the live allocations;
* `DumpTells` — the scan ends, and the lines with `[USED]` are the live allocations.

Principal results: `dumpLoop_spec` and `dump_tells`.
-/

set_option autoImplicit false

namespace OSCompas.Memory

open ByteMemory Chain Runs

/-! ## The code -/

/-- A line `Block …: 0x… size=… [USED]`, or `[FREE]`. -/
structure DumpLine where
  number : Nat
  ptr : Nat
  size : Nat
  used : Bool
  deriving DecidableEq, Repr

/-- The loop of `memory_dump`. -/
def dumpLoop (m : Mem) (heapEnd : Nat) : Nat → Nat → Nat → Option (List DumpLine)
  | 0, _, _ => none
  | fuel + 1, addr, blockNum =>
    if addr < heapEnd then
      if headerMagic m addr ≠ BLOCK_MAGIC then
        dumpLoop m heapEnd fuel ((addr + 8) % 2 ^ 64) blockNum
      else
        (dumpLoop m heapEnd fuel ((addr + (HEADER_SIZE + headerSize m addr)) % 2 ^ 64)
          ((blockNum + 1) % 2 ^ 32)).map
          (⟨blockNum, (addr + HEADER_SIZE) % 2 ^ 64, headerSize m addr, headerUsed m addr ≠ 0⟩ :: ·)
    else some []

/-- `memory_dump`: the lines after its heading. -/
def memoryDump (fuel : Nat) (s : State) : Option (List DumpLine) :=
  dumpLoop s.mem s.heapEnd fuel s.heapStart 0

variable {m : Mem} {e fuel addr num memStart memEnd : Nat} {s : State} {w : World} {l l' : Layout}
  {x y : Held} {bs : List Block} {pre post : List Held}

/-! ## The scan -/

/-- What a line with `[USED]` says. -/
def usedLines (lines : List DumpLine) : List (Nat × Nat) :=
  (lines.filter (·.used)).map fun line => (line.ptr, line.size)

/-- What it should say of an allocation. -/
def Held.line (x : Held) : Nat × Nat := (x.addr + HEADER_SIZE, x.size)

/-- No allocation lies across the address. -/
def Between (l : Layout) (addr : Nat) : Prop :=
  ∀ x ∈ l.held, addr ≤ x.addr ∨ x.addr + (16 + x.size) ≤ addr

/-- The allocations from the address on. -/
def Layout.heldFrom (l : Layout) (addr : Nat) : List Held := l.held.filter (addr ≤ ·.addr)

/-- Past an allocation, it is the only one left behind. -/
theorem heldFrom_past (h : HeapInv s ⟨bs, pre ++ x :: post⟩) :
    (Layout.heldFrom ⟨bs, pre ++ x :: post⟩ x.addr).Perm
      (x :: Layout.heldFrom ⟨bs, pre ++ x :: post⟩ (x.addr + (16 + x.size))) := by
  have hx : x ∈ pre ++ x :: post := by simp
  have hsame : ∀ y ∈ pre ++ post,
      decide (x.addr ≤ y.addr) = decide (x.addr + (16 + x.size) ≤ y.addr) := by
    intro y hy
    have hapart := h.held_apart hy
    apply decide_eq_decide.mpr
    omega
  have hpre : pre.filter (x.addr ≤ ·.addr) = pre.filter (x.addr + (16 + x.size) ≤ ·.addr) :=
    List.filter_congr fun y hy => hsame y (List.mem_append_left _ hy)
  have hpost : post.filter (x.addr ≤ ·.addr) = post.filter (x.addr + (16 + x.size) ≤ ·.addr) :=
    List.filter_congr fun y hy => hsame y (List.mem_append_right _ hy)
  unfold Layout.heldFrom
  rw [List.filter_append, List.filter_append, List.filter_cons_of_pos (by simp),
    List.filter_cons_of_neg (by simp), hpre, hpost]
  exact List.perm_middle

/-- **The scan ends, and prints the allocations from where it stands.** -/
theorem dumpLoop_spec (num : Nat) (h : HeapInv s l) (hend : s.heapEnd % 8 = 0)
    (hsize : ∀ x ∈ l.held, x.size % 8 = 0)
    (hfalse : ∀ a, s.heapStart ≤ a → a < s.heapEnd → a % 8 = 0 →
      (∀ x ∈ l.held, a < x.addr ∨ x.addr + (16 + x.size) ≤ a) → headerMagic s.mem a ≠ BLOCK_MAGIC)
    (hlo : s.heapStart ≤ addr) (h8 : addr % 8 = 0) (hbetween : Between l addr)
    (hfuel : s.heapEnd - addr < fuel) :
    ∃ lines, dumpLoop s.mem s.heapEnd fuel addr num = some lines ∧
      (usedLines lines).Perm ((l.heldFrom addr).map Held.line) := by
  have hlt := h.heapEnd_lt
  induction fuel generalizing addr num with
  | zero => omega
  | succ fuel ih =>
    rw [dumpLoop]
    by_cases hin : addr < s.heapEnd
    · rw [if_pos hin]
      by_cases hat : ∃ x ∈ l.held, x.addr = addr
      · -- an allocation: the scan goes to its end
        obtain ⟨x, hx, rfl⟩ := hat
        have hok := h.held x hx
        have hbound := h.held_bound hx
        have hx8 := hsize x hx
        have hnext : (x.addr + (HEADER_SIZE + x.size)) % 2 ^ 64 = x.addr + (16 + x.size) :=
          Nat.mod_eq_of_lt (show x.addr + (16 + x.size) < 2 ^ 64 by omega)
        have hptr : (x.addr + HEADER_SIZE) % 2 ^ 64 = x.addr + HEADER_SIZE :=
          Nat.mod_eq_of_lt (show x.addr + 16 < 2 ^ 64 by omega)
        have hbetween' : Between l (x.addr + (16 + x.size)) := by
          intro y hy
          by_cases hxy : x = y
          · exact .inr (hxy ▸ Nat.le_refl _)
          · have hapart : x.addr + (16 + x.size) ≤ y.addr ∨ y.addr + (16 + y.size) ≤ x.addr :=
              Held.apart_iff.mp (h.apart_held hx hy hxy)
            omega
        obtain ⟨lines, hlines, hperm⟩ := ih ((num + 1) % 2 ^ 32) (by omega) (by omega)
          hbetween' (by omega)
        rw [if_neg (by simp [hok.magic]), hok.size_eq, hok.used, hnext, hptr, hlines]
        refine ⟨_, rfl, ?_⟩
        obtain ⟨bs, hs⟩ := l
        obtain ⟨pre, post, rfl⟩ := List.append_of_mem hx
        refine List.Perm.trans ?_ ((heldFrom_past h).map Held.line).symm
        exact hperm.cons _
      · -- no allocation: a step of 8 bytes
        have hoff : ∀ x ∈ l.held, addr < x.addr ∨ x.addr + (16 + x.size) ≤ addr := by
          intro x hx
          have hne : x.addr ≠ addr := fun heq => hat ⟨x, hx, heq⟩
          rcases hbetween x hx with hle | hge
          · exact .inl (Nat.lt_of_le_of_ne hle (Ne.symm hne))
          · exact .inr hge
        have hnext : (addr + 8) % 2 ^ 64 = addr + 8 := Nat.mod_eq_of_lt (by omega)
        have hbetween' : Between l (addr + 8) := by
          intro x hx
          have hx8 : x.addr % 8 = 0 := (h.held_inHeap hx).2.2
          rcases hoff x hx with hlt' | hge
          · exact .inl (by omega)
          · exact .inr (by omega)
        obtain ⟨lines, hlines, hperm⟩ := ih num (by omega) (by omega) hbetween' (by omega)
        rw [if_pos (hfalse addr hlo hin h8 hoff), hnext]
        refine ⟨lines, hlines, hperm.trans ?_⟩
        have hsame : l.heldFrom (addr + 8) = l.heldFrom addr := by
          apply List.filter_congr
          intro x hx
          have hpos := (h.held x hx).pos
          have hx8 : x.addr % 8 = 0 := (h.held_inHeap hx).2.2
          have hxoff := hoff x hx
          apply decide_eq_decide.mpr
          omega
        rw [hsame]
    · rw [if_neg hin]
      have hnone : l.heldFrom addr = [] := by
        apply List.filter_eq_nil_iff.mpr
        intro x hx
        have hbound := h.held_bound hx
        simp only [decide_eq_true_eq]
        omega
      exact ⟨[], rfl, by rw [hnone]; exact .refl _⟩

/-! ## Runs -/

/-- Sizes of allocations are multiples of 8. -/
theorem Layout.Steps.sizes (hs : Layout.Steps l l') (h : ∀ x ∈ l.held, x.size % 8 = 0) :
    ∀ x ∈ l'.held, x.size % 8 = 0 := by
  induction hs with
  | refl => exact h
  | tail _ hstep ih =>
    cases hstep with
    | merge => exact ih
    | take hfit hmod =>
      intro x hx
      rcases List.mem_cons.mp hx with rfl | hx
      · exact hmod
      · exact ih x hx
    | release =>
      intro y hy
      exact ih y (mem_middle_of_mem hy)
    | resize hle =>
      rename_i pre post x requested _
      intro y hy
      rcases List.mem_cons.mp hy with rfl | hy
      · exact ih x (by simp)
      · exact ih y (mem_middle_of_mem hy)

/-- The size in the header of a live allocation. -/
def sizeOf (w : World) (a : Allocation) : Nat := headerSize w.heap.mem (blockFromPtr a.ptr)

/-- At no multiple of 8 in the heap that lies off the live allocations is there a byte that could be
a magic number. -/
def NoFalseHeader (w : World) : Prop :=
  ∀ addr, w.heap.heapStart ≤ addr → addr < w.heap.heapEnd → addr % 8 = 0 →
    (∀ a ∈ w.live, addr < blockFromPtr a.ptr ∨ a.ptr + sizeOf w a ≤ addr) →
    headerMagic w.heap.mem addr ≠ BLOCK_MAGIC

/-- The scan ends, and its lines with `[USED]` are the live allocations with the sizes of their
blocks, which hold what was asked for. -/
structure DumpTells (w : World) : Prop where
  ends : ∃ fuel lines, memoryDump fuel w.heap = some lines
  used : ∀ fuel lines, memoryDump fuel w.heap = some lines →
    (usedLines lines).Perm (w.live.map fun a => (a.ptr, sizeOf w a))
  room : ∀ a ∈ w.live, a.requested ≤ sizeOf w a

/-- With more turns the scan prints the same. -/
theorem dumpLoop_mono {fuel' : Nat} {lines : List DumpLine}
    (h : dumpLoop m e fuel addr num = some lines) (hf : fuel ≤ fuel') :
    dumpLoop m e fuel' addr num = some lines := by
  induction fuel generalizing fuel' addr num lines with
  | zero => cases h
  | succ fuel ih =>
    obtain ⟨fuel', rfl⟩ := Nat.exists_eq_succ_of_ne_zero (show fuel' ≠ 0 by omega)
    rw [dumpLoop] at h ⊢
    split at h
    · rename_i hin
      rw [if_pos hin]
      split at h
      · rename_i hmagic
        rw [if_pos hmagic]
        exact ih h (by omega)
      · rename_i hmagic
        rw [if_neg hmagic]
        obtain ⟨rest, hrest, rfl⟩ := Option.map_eq_some_iff.mp h
        rw [ih hrest (by omega)]
        rfl
    · rename_i hin
      rw [if_neg hin]
      exact h

theorem Holds.sizeOf_eq (h : Holds w l) (hx : x ∈ l.held) :
    blockFromPtr x.allocation.ptr = x.addr ∧ sizeOf w x.allocation = x.size := by
  have h24 := h.inv.held_header hx
  have hblock : blockFromPtr x.allocation.ptr = x.addr := blockFromPtr_add (by omega)
  refine ⟨hblock, ?_⟩
  unfold sizeOf
  rw [hblock]
  exact (h.inv.held x hx).size_eq

/-- **In every guarded run `memory_dump` ends and tells the truth in every state in which no byte
can be taken for a magic number.** -/
theorem dump_tells (he : memEnd < 2 ^ 64) (hr : RegionOk memStart memEnd)
    (hrun : Reaches Step Guarded (World.init m memStart memEnd) w) (hno : NoFalseHeader w) :
    DumpTells w := by
  obtain ⟨l, h, hsteps, hreg⟩ := run_holds (init_holds he hr) hrun
  have hsize : ∀ x ∈ l.held, x.size % 8 = 0 := hsteps.sizes (by simp [Layout.init])
  have hend : w.heap.heapEnd % 8 = 0 := by
    rw [hreg.heapEnd]
    exact Nat.mul_mod_left _ _
  have hstart : w.heap.heapStart % 8 = 0 := by
    rw [hreg.heapStart]
    exact alignUp_mod _
  have hfalse : ∀ a, w.heap.heapStart ≤ a → a < w.heap.heapEnd → a % 8 = 0 →
      (∀ x ∈ l.held, a < x.addr ∨ x.addr + (16 + x.size) ≤ a) →
      headerMagic w.heap.mem a ≠ BLOCK_MAGIC := by
    intro a hlo hhi h8 hoff
    apply hno a hlo hhi h8
    intro b hb
    rw [h.live] at hb
    obtain ⟨x, hx, rfl⟩ := List.mem_map.mp hb
    obtain ⟨hblock, hsz⟩ := h.sizeOf_eq hx
    rw [hblock, hsz]
    exact (hoff x hx).imp_right fun hle => by show x.addr + 16 + x.size ≤ a; omega
  have hbetween : Between l w.heap.heapStart := fun x hx => .inl (h.inv.held_inHeap hx).1
  have hspec := dumpLoop_spec 0 h.inv hend hsize hfalse (Nat.le_refl _) hstart hbetween
    (Nat.lt_succ_self _)
  obtain ⟨lines, hlines, hperm⟩ := hspec
  have hall : l.heldFrom w.heap.heapStart = l.held :=
    List.filter_eq_self.mpr fun x hx => decide_eq_true (h.inv.held_inHeap hx).1
  have hlive : l.held.map Held.line = w.live.map fun a => (a.ptr, sizeOf w a) := by
    rw [h.live, List.map_map]
    apply List.map_congr_left
    intro x hx
    show (x.addr + HEADER_SIZE, x.size) = (x.allocation.ptr, sizeOf w x.allocation)
    rw [(h.sizeOf_eq hx).2]
    rfl
  refine ⟨⟨_, lines, hlines⟩, fun fuel lines' hlines' => ?_, fun a ha => ?_⟩
  · -- two scans that end print the same
    have hmax := dumpLoop_mono hlines (Nat.le_max_left _ fuel)
    have hmax' := dumpLoop_mono hlines'
      (Nat.le_max_right (w.heap.heapEnd - w.heap.heapStart).succ fuel)
    cases hmax.symm.trans hmax'
    rw [← hlive, ← hall]
    exact hperm
  · rw [h.live] at ha
    obtain ⟨x, hx, rfl⟩ := List.mem_map.mp ha
    rw [(h.sizeOf_eq hx).2]
    exact (h.inv.held x hx).requested_le

/-- The test of `NoFalseHeader`, one multiple of 8 after the other. -/
def noFalseHeader (w : World) : Bool :=
  (List.range ((w.heap.heapEnd - w.heap.heapStart) / 8)).all fun i =>
    let addr := w.heap.heapStart + 8 * i
    (w.live.any fun a => blockFromPtr a.ptr ≤ addr && addr < a.ptr + sizeOf w a) ||
      headerMagic w.heap.mem addr != BLOCK_MAGIC

theorem noFalseHeader_spec (hstart : w.heap.heapStart % 8 = 0) (hend : w.heap.heapEnd % 8 = 0)
    (h : noFalseHeader w = true) : NoFalseHeader w := by
  intro addr hlo hhi h8 hoff
  have haddr : w.heap.heapStart + 8 * ((addr - w.heap.heapStart) / 8) = addr := by omega
  have hat := List.all_eq_true.mp h ((addr - w.heap.heapStart) / 8)
    (List.mem_range.mpr (by omega))
  simp only [haddr, Bool.or_eq_true, List.any_eq_true, Bool.and_eq_true, decide_eq_true_eq,
    bne_iff_ne] at hat
  rcases hat with ⟨a, ha, hle, hlt⟩ | hne
  · rcases hoff a ha with hlt' | hle'
    · omega
    · omega
  · exact hne

/-- Two allocations in a heap of 256 bytes. -/
theorem dump_tells_run : ∃ w, w.live.length = 2 ∧
    Reaches Step Guarded (World.init (fun _ => 0) 4096 4352) w ∧ NoFalseHeader w ∧
    DumpTells w := by
  have hx : (exec (step 8) (guarded 8) (World.init (fun _ => 0) 4096 4352)
      [.kmalloc 176, .kmalloc 8]).map (fun w =>
        (w.live.length, w.heap.heapStart % 8, w.heap.heapEnd % 8, noFalseHeader w)) =
      some (2, 0, 0, true) := by decide +kernel
  obtain ⟨w, hw, hobs⟩ := Option.map_eq_some_iff.mp hx
  simp only [Prod.mk.injEq] at hobs
  obtain ⟨hl, hstart, hend, hcheck⟩ := hobs
  have hrun := guarded_run hw
  have hno := noFalseHeader_spec hstart hend hcheck
  exact ⟨w, hl, hrun, hno, dump_tells (by decide) (.inr (by decide)) hrun hno⟩

/-- The first of two allocations is given back: its `size` field then says 171, which the scan takes
for a magic number; `next` is taken for a size, and the scan jumps over everything else. -/
theorem dump_misses : ¬ ∀ m memStart memEnd w, memStart ≤ memEnd → memEnd < 2 ^ 64 →
    Reaches Step Legal (World.init m memStart memEnd) w → DumpTells w := by
  intro hall
  have hx : (exec (step 8) (fun w op => decide (Legal w op)) (World.init (fun _ => 0) 4096 8192)
      [.kmalloc 176, .kmalloc 8, .kfree 4112]).map (fun w =>
        (w.live.length, (memoryDump 8 w.heap).map usedLines)) = some (1, some []) := by
    decide +kernel
  obtain ⟨w, hw, hobs⟩ := Option.map_eq_some_iff.mp hx
  obtain ⟨hl, hdump⟩ := Prod.mk.inj hobs
  obtain ⟨lines, hlines, hused⟩ := Option.map_eq_some_iff.mp hdump
  have htells := hall _ 4096 8192 w (by decide) (by decide) (legal_run hw)
  have hlen := (htells.used 8 lines hlines).length_eq
  rw [hused, List.length_map, hl] at hlen
  cases hlen

end OSCompas.Memory
