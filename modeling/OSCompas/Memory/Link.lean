import Mathlib.Data.Set.Function
import OSCompas.Lib.LinkScript
import OSCompas.Memory.Safety
import Mathlib.Order.CompletePartialOrder

/-!
# The kernel image (`lab3-1-sparrowos-memory-module/src/link.ld`)

`_heap_start` is the end of `.data`.  `_heap_end` is a point 64 KiB behind `.bss`, which the
location counter does not move to: `.stack` comes right behind `.bss`.

* `linkScript`, `link` — the script, and the addresses for given input sections;
* `heap`, `HeapIsFree` — the interval `main` hands to `memory_init`, and what it must keep clear of.

Principal results: `stack_subset_heap`, `bss_subset_heap`, `heap_never_free` and
`first_block_covers_stack`.
-/

set_option autoImplicit false

namespace OSCompas.Memory

open LinkScript Chain

/-- The patterns of `link.ld`. -/
inductive InputName where
  | textInit | text | rodata | srodata | data | sdata | bss | sbss
  deriving DecidableEq, Repr

inductive SectionName where
  | text | rodata | data | bss | stack
  deriving DecidableEq, Repr

inductive Symbol where
  | globalPointer | heapStart | heapEnd | stackStart | stackEnd | memoryEnd
  deriving DecidableEq, Repr

/-- `ORIGIN(RAM)`. -/
def RAM_ORIGIN : Nat := 0x80020000

/-- `LENGTH(RAM)`. -/
def RAM_LENGTH : Nat := 128 * 2 ^ 20 - 0x20000

/-- `SECTIONS`. -/
def linkScript : List (Command InputName SectionName Symbol) :=
  [.goto 0x80020000,
   .output .text [.input .textInit, .input .text],
   .output .rodata [.input .rodata, .input .srodata],
   .output .data [.input .data, .input .sdata, .define .globalPointer 0x800,
     .define .heapStart 0],
   -- `. = ALIGN(16); _heap_end = . + 0x10000;`: the counter stays in front of the heap's end
   .output .bss [.input .bss, .input .sbss, .align 16, .define .heapEnd 0x10000],
   .output .stack [.align 16, .define .stackStart 0, .skip 0x4000, .define .stackEnd 0],
   .align 8,
   .define .memoryEnd]

/-- The image for the given input sections. -/
def link (inputs : InputName → List Input) : Image SectionName Symbol := layout inputs linkScript

def extent (l : Image SectionName Symbol) (n : SectionName) : Set Nat :=
  Set.Ico (l.sections n).start (l.sections n).stop

/-- The interval `main` passes to `memory_init`. -/
def heap (l : Image SectionName Symbol) : Set Nat :=
  Set.Ico (l.symbols .heapStart) (l.symbols .heapEnd)

/-- `[_stack_start, _stack_end)`. -/
def stack (l : Image SectionName Symbol) : Set Nat :=
  Set.Ico (l.symbols .stackStart) (l.symbols .stackEnd)

/-- The output sections fit the region `RAM`. -/
def Fits (l : Image SectionName Symbol) : Prop :=
  ∀ n, (l.sections n).stop ≤ RAM_ORIGIN + RAM_LENGTH

/-- The heap is off the static data and the boot stack, and in `RAM`. -/
structure HeapIsFree (l : Image SectionName Symbol) : Prop where
  data : Disjoint (heap l) (extent l .data)
  bss : Disjoint (heap l) (extent l .bss)
  stack : Disjoint (heap l) (stack l)
  ram : heap l ⊆ Set.Ico RAM_ORIGIN (RAM_ORIGIN + RAM_LENGTH)

/-! ## The addresses -/

variable (inputs : InputName → List Input)

theorem heapStart_eq : (link inputs).symbols .heapStart = ((link inputs).sections .data).stop := rfl

theorem heapEnd_eq : (link inputs).symbols .heapEnd =
    ((link inputs).sections .bss).stop + 0x10000 := rfl

/-- `.bss` starts where `.data` ends, or a little later. -/
theorem data_stop_le_bss : ((link inputs).sections .data).stop ≤
    ((link inputs).sections .bss).start :=
  le_alignTo (Nat.two_pow_pos _)

theorem bss_stop_eq : ((link inputs).sections .bss).stop = alignTo 16
    (place (place ((link inputs).sections .bss).start (inputs .bss)) (inputs .sbss)) := rfl

theorem bss_start_le : ((link inputs).sections .bss).start ≤ ((link inputs).sections .bss).stop := by
  rw [bss_stop_eq]
  have h1 := place_le ((link inputs).sections .bss).start (inputs .bss)
  have h2 := place_le (place ((link inputs).sections .bss).start (inputs .bss)) (inputs .sbss)
  exact (h1.trans h2).trans (le_alignTo (by decide))

theorem bss_stop_mod : ((link inputs).sections .bss).stop % 16 = 0 := by
  rw [bss_stop_eq]
  exact alignTo_mod 16 _

/-- `.stack` has no alignment to wait for, and `.bss` ends at a multiple of 16. -/
theorem stack_aligned : alignTo 16 (alignTo 1 ((link inputs).sections .bss).stop) =
    ((link inputs).sections .bss).stop := by
  rw [alignTo_of_mod (by decide) (Nat.mod_one _), alignTo_of_mod (by decide) (bss_stop_mod inputs)]

/-- The stack starts right where `.bss` ends. -/
theorem stackStart_eq :
    (link inputs).symbols .stackStart = ((link inputs).sections .bss).stop := by
  have h : (link inputs).symbols .stackStart =
      alignTo 16 (alignTo 1 ((link inputs).sections .bss).stop) + 0 := rfl
  rw [h, stack_aligned, Nat.add_zero]

theorem stackEnd_eq :
    (link inputs).symbols .stackEnd = ((link inputs).sections .bss).stop + 0x4000 := by
  have h : (link inputs).symbols .stackEnd =
      alignTo 16 (alignTo 1 ((link inputs).sections .bss).stop) + 0x4000 + 0 := rfl
  rw [h, stack_aligned, Nat.add_zero]

/-! ## What the heap covers -/

/-- **The boot stack lies in the heap.** -/
theorem stack_subset_heap :
    stack (link inputs) ⊆ heap (link inputs) := by
  have h1 := data_stop_le_bss inputs
  have h2 := bss_start_le inputs
  unfold stack heap
  rw [stackEnd_eq, stackStart_eq, heapEnd_eq, heapStart_eq]
  apply Set.Ico_subset_Ico
  · exact h1.trans h2
  · omega

/-- **The zero-initialised static data lie in the heap.** -/
theorem bss_subset_heap :
    extent (link inputs) .bss ⊆ heap (link inputs) := by
  unfold extent heap
  rw [heapEnd_eq, heapStart_eq]
  apply Set.Ico_subset_Ico
  · exact data_stop_le_bss inputs
  · omega

/-- The initialised ones do not. -/
theorem data_disjoint_heap :
    Disjoint (heap (link inputs)) (extent (link inputs) .data) := by
  rw [Set.disjoint_left]
  intro a ha hd
  have h1 := ha.1
  have h2 := hd.2
  rw [heapStart_eq] at h1
  omega

theorem stackStart_mem : (link inputs).symbols .stackStart ∈ stack (link inputs) := by
  unfold stack
  rw [stackEnd_eq, stackStart_eq]
  exact ⟨Nat.le_refl _, by omega⟩

/-- **For no sizes of the input sections is the heap clear of the boot stack.** -/
theorem heap_never_free : ¬ HeapIsFree (link inputs) := by
  intro h
  have hmem := stack_subset_heap inputs (stackStart_mem inputs)
  exact Set.disjoint_left.mp h.stack hmem (stackStart_mem inputs)

/-- One page of each kind: the sections fit, and the heap covers the stack. -/
theorem heap_not_free_pages : Fits (link fun _ => [⟨4096, 4⟩]) ∧
    ¬ HeapIsFree (link fun _ => [⟨4096, 4⟩]) := by
  constructor
  · intro n
    cases n <;> decide
  · intro h
    have hmem : 0x80028000 ∈ stack (link fun _ => [⟨4096, 4⟩]) := by
      constructor <;> decide
    exact Set.disjoint_left.mp h.stack (stack_subset_heap _ hmem) hmem

/-! ## The block `memory_init` makes -/

theorem ram_end : RAM_ORIGIN + RAM_LENGTH = 0x88000000 := by decide

/-- The arithmetic of `memory_init` when the heap ends 64 KiB behind an aligned address. -/
theorem first_block_extent {x y : Nat} (hx : x ≤ y) (hy : y % 16 = 0) (hlt : y < 2 ^ 63) :
    alignUp x ≤ y ∧ alignUp x + (24 +
      sub64 (sub64 (alignDown (y + 0x10000)) (alignUp x)) 24) = y + 0x10000 := by
  have hup : alignUp x ≤ y := by
    unfold alignUp
    omega
  have hdown : alignDown (y + 0x10000) = y + 0x10000 := by
    unfold alignDown
    omega
  rw [hdown, sub64_sub64 (by omega) (by omega)]
  exact ⟨hup, by omega⟩

/-- The first address is not 0, since the location counter only moves up from `ORIGIN(RAM)`. -/
theorem ram_origin_le_heapStart : RAM_ORIGIN ≤ (link inputs).symbols .heapStart := by
  have htext : RAM_ORIGIN ≤ ((link inputs).sections .text).start := le_alignTo (Nat.two_pow_pos _)
  have htext' : ((link inputs).sections .text).start ≤ ((link inputs).sections .text).stop :=
    (place_le _ _).trans (place_le _ _)
  have hrodata : ((link inputs).sections .text).stop ≤ ((link inputs).sections .rodata).start :=
    le_alignTo (Nat.two_pow_pos _)
  have hrodata' : ((link inputs).sections .rodata).start ≤
      ((link inputs).sections .rodata).stop := (place_le _ _).trans (place_le _ _)
  have hdata : ((link inputs).sections .rodata).stop ≤ ((link inputs).sections .data).start :=
    le_alignTo (Nat.two_pow_pos _)
  have hdata' : ((link inputs).sections .data).start ≤ ((link inputs).sections .data).stop :=
    (place_le _ _).trans (place_le _ _)
  rw [heapStart_eq]
  omega

/-- What `main` starts from: the heap right after its call to `memory_init`. -/
def boot (m : ByteMemory.Mem) (l : Image SectionName Symbol) : World :=
  World.init m (l.symbols .heapStart) (l.symbols .heapEnd)

/-- **After `main` has called `memory_init`, the boot stack lies in a block of the free list.** -/
theorem first_block_covers_stack (m : ByteMemory.Mem) (h : Fits (link inputs)) :
    ∃ b, OnChain (next (boot m (link inputs)).heap.mem) 0 (boot m (link inputs)).heap.freeList b ∧
      stack (link inputs) ⊆ Set.Ico b (b + (FREE_BLOCK_SIZE +
        blockSize (boot m (link inputs)).heap.mem b)) := by
  have hlo := ram_origin_le_heapStart inputs
  have hstart := (data_stop_le_bss inputs).trans (bss_start_le inputs)
  have hmod := bss_stop_mod inputs
  have hfit := h .bss
  rw [ram_end] at hfit
  rw [show RAM_ORIGIN = 0x80020000 from rfl, heapStart_eq] at hlo
  obtain ⟨hup, hsize⟩ := first_block_extent hstart hmod (by omega)
  have h0 : alignUp ((link inputs).sections .data).stop ≠ 0 := by
    unfold alignUp
    omega
  have hl := init_freeList m (((link inputs).sections .bss).stop + 0x10000) h0
  obtain ⟨-, -, hs, -⟩ := freeList_cons.mp hl
  have hboot : boot m (link inputs) = World.init m ((link inputs).sections .data).stop
      (((link inputs).sections .bss).stop + 0x10000) := rfl
  rw [hboot]
  refine ⟨alignUp ((link inputs).sections .data).stop, .head h0, ?_⟩
  rw [hs]
  unfold stack
  rw [stackStart_eq, stackEnd_eq]
  apply Set.Ico_subset_Ico hup
  show _ ≤ alignUp ((link inputs).sections .data).stop + (24 + sub64 (sub64 (alignDown
    (((link inputs).sections .bss).stop + 0x10000)) (alignUp ((link inputs).sections .data).stop)) 24)
  rw [hsize]
  omega

end OSCompas.Memory
