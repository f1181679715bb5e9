import OSCompas.Lib.ByteMemory
import OSCompas.Lib.Runs

/-!
# The kernel heap (`lab3-1-sparrowos-memory-module/src/memory.c`)

The allocator as `memory.c` computes it, over the bytes it manages.  A `free_block_t` and a
`block_header_t` are two readings of the same bytes (`memory.h`, 64-bit little-endian):

    free_block_t     next at 0 (8 bytes), size at 8 (8 bytes), magic at 16 (1 byte); 24 bytes
    block_header_t   size at 0 (8 bytes), magic at 8 (1 byte), used at 9 (1 byte);   16 bytes

Addresses, `size_t` and `uint64_t` are naturals below `2 ^ 64`; every sum, difference and product
is reduced modulo `2 ^ 64` where the C code computes it.  The `while` loops over the free list
take a bound on the number of iterations: `none` is a loop that has not ended within it.
Diagnostics are left out except the lines of `memory_integrity_check`.

* `State` — `mem_manager` and the memory;
* `memoryInit`, `splitBlock`, `coalesceBlocks`, `findBestFit`, `addToFreeList`,
  `removeFromFreeList`, `kmalloc`, `kfree`, `kcalloc`, `krealloc`, `memoryIntegrityCheck`;
* `World`, `Op`, `step` — the callers: the allocations they hold and what they may do next.
-/

set_option autoImplicit false

namespace OSCompas.Memory

open ByteMemory

def BLOCK_MAGIC : Nat := 0xAB

/-- `SIZE_MAX`. -/
def SIZE_MAX : Nat := 2 ^ 64 - 1

/-- `sizeof(free_block_t)`. -/
abbrev FREE_BLOCK_SIZE : Nat := 24

/-- `HEADER_SIZE`, that is `sizeof(block_header_t)`. -/
abbrev HEADER_SIZE : Nat := 16

/-- `MIN_BLOCK_SIZE`, that is `sizeof(free_block_t) + 8`. -/
abbrev MIN_BLOCK_SIZE : Nat := 32

/-- `ALIGN_UP(x, MEM_ALIGNMENT)`: add 7, then `& ~7`. -/
def alignUp (x : Nat) : Nat := (x + 7) % 2 ^ 64 / 8 * 8

/-- `ALIGN_DOWN(x, MEM_ALIGNMENT)`: `x & ~7`. -/
def alignDown (x : Nat) : Nat := x / 8 * 8

/-- Subtraction of `size_t` values. -/
def sub64 (x y : Nat) : Nat := (x + (2 ^ 64 - y)) % 2 ^ 64

/-! ## The two block headers -/

def next (m : Mem) (b : Nat) : Nat := load (2 ^ 64) m b 8
def blockSize (m : Mem) (b : Nat) : Nat := load (2 ^ 64) m ((b + 8) % 2 ^ 64) 8

def headerSize (m : Mem) (b : Nat) : Nat := load (2 ^ 64) m b 8
def headerMagic (m : Mem) (b : Nat) : Nat := load (2 ^ 64) m ((b + 8) % 2 ^ 64) 1
def headerUsed (m : Mem) (b : Nat) : Nat := load (2 ^ 64) m ((b + 9) % 2 ^ 64) 1

def setNext (m : Mem) (b v : Nat) : Mem := store (2 ^ 64) m b 8 v
def setBlockSize (m : Mem) (b v : Nat) : Mem := store (2 ^ 64) m ((b + 8) % 2 ^ 64) 8 v
def setBlockMagic (m : Mem) (b v : Nat) : Mem := store (2 ^ 64) m ((b + 16) % 2 ^ 64) 1 v

def setHeaderSize (m : Mem) (b v : Nat) : Mem := store (2 ^ 64) m b 8 v
def setHeaderMagic (m : Mem) (b v : Nat) : Mem := store (2 ^ 64) m ((b + 8) % 2 ^ 64) 1 v
def setHeaderUsed (m : Mem) (b v : Nat) : Mem := store (2 ^ 64) m ((b + 9) % 2 ^ 64) 1 v

/-! ## The allocator -/

/-- `mem_manager` and the memory it manages. -/
structure State where
  mem : Mem
  freeList : Nat
  totalMemory : Nat
  freeMemory : Nat
  usedMemory : Nat
  allocCount : Nat
  freeCount : Nat
  heapStart : Nat
  heapEnd : Nat
  initialized : Bool

/-- The zero-initialised `mem_manager` over arbitrary memory. -/
def State.boot (m : Mem) : State := ⟨m, 0, 0, 0, 0, 0, 0, 0, 0, false⟩

/-- `memory_init`. -/
def memoryInit (s : State) (memStart memEnd : Nat) : State :=
  if s.initialized then s else
  let memStart := alignUp memStart
  let memEnd := alignDown memEnd
  let total := sub64 memEnd memStart
  let size := sub64 total FREE_BLOCK_SIZE
  let m := setBlockSize s.mem memStart size
  let m := setNext m memStart 0
  let m := setBlockMagic m memStart BLOCK_MAGIC
  { mem := m, freeList := memStart, totalMemory := total, freeMemory := size, usedMemory := 0,
    allocCount := 0, freeCount := 0, heapStart := memStart, heapEnd := memEnd,
    initialized := true }

/-- `split_block`. -/
def splitBlock (s : State) (block size : Nat) : State :=
  let remaining := sub64 (sub64 (blockSize s.mem block) size) FREE_BLOCK_SIZE
  if remaining < MIN_BLOCK_SIZE then s else
  let newBlock := (block + FREE_BLOCK_SIZE + size) % 2 ^ 64
  let m := setBlockSize s.mem newBlock remaining
  let m := setBlockMagic m newBlock BLOCK_MAGIC
  let m := setNext m newBlock (next m block)
  let m := setBlockSize m block size
  let m := setNext m block newBlock
  { s with mem := m, freeMemory := sub64 s.freeMemory FREE_BLOCK_SIZE }

/-- The loop of `coalesce_blocks`, from `curr` on. -/
def coalesceLoop : Nat → State → Nat → Option State
  | 0, _, _ => none
  | fuel + 1, s, curr =>
    if curr = 0 then some s else
    let nxt := next s.mem curr
    if nxt ≠ 0 ∧ (curr + FREE_BLOCK_SIZE + blockSize s.mem curr) % 2 ^ 64 = nxt then
      let m := setBlockSize s.mem curr
        ((blockSize s.mem curr + (FREE_BLOCK_SIZE + blockSize s.mem nxt)) % 2 ^ 64)
      let m := setNext m curr (next m nxt)
      coalesceLoop fuel
        { s with mem := m, freeMemory := (s.freeMemory + FREE_BLOCK_SIZE) % 2 ^ 64 } curr
    else coalesceLoop fuel s nxt

/-- `coalesce_blocks`. -/
def coalesceBlocks (fuel : Nat) (s : State) : Option State := coalesceLoop fuel s s.freeList

/-- The loop of `find_best_fit`; 0 is `NULL`. -/
def bestFitLoop (m : Mem) (size : Nat) : Nat → Nat → Nat → Nat → Option Nat
  | 0, _, _, _ => none
  | fuel + 1, curr, best, bestSize =>
    if curr = 0 then some best else
    if size ≤ blockSize m curr ∧ blockSize m curr < bestSize then
      if blockSize m curr = size then some curr
      else bestFitLoop m size fuel (next m curr) curr (blockSize m curr)
    else bestFitLoop m size fuel (next m curr) best bestSize

/-- `find_best_fit`. -/
def findBestFit (fuel : Nat) (s : State) (size : Nat) : Option Nat :=
  bestFitLoop s.mem size fuel s.freeList 0 SIZE_MAX

/-- `add_to_free_list`. -/
def addToFreeList (s : State) (block : Nat) : State :=
  let m := setBlockMagic s.mem block BLOCK_MAGIC
  let m := setNext m block s.freeList
  { s with mem := m, freeList := block }

/-- The loop of `remove_from_free_list`: the node whose successor is `block`, or `NULL`. -/
def predecessorLoop (m : Mem) (block : Nat) : Nat → Nat → Option Nat
  | 0, _ => none
  | fuel + 1, curr =>
    if curr = 0 ∨ next m curr = block then some curr
    else predecessorLoop m block fuel (next m curr)

/-- `remove_from_free_list`. -/
def removeFromFreeList (fuel : Nat) (s : State) (block : Nat) : Option State :=
  if s.freeList = block then some { s with freeList := next s.mem block } else
  (predecessorLoop s.mem block fuel s.freeList).map fun curr =>
    if curr = 0 then s else { s with mem := setNext s.mem curr (next s.mem block) }

/-- The search of `kmalloc`: the best fit, a second time after merging if there was none. -/
def searchBlock (fuel : Nat) (s : State) (size : Nat) : Option (State × Nat) := do
  let block ← findBestFit fuel s size
  if block ≠ 0 then return (s, block)
  let s ← coalesceBlocks fuel s
  let block ← findBestFit fuel s size
  return (s, block)

/-- The rest of `kmalloc`, once `block` is chosen. -/
def takeBlock (fuel : Nat) (s : State) (block size : Nat) : Option State := do
  let s := splitBlock s block size
  let s ← removeFromFreeList fuel s block
  let m := setHeaderSize s.mem block size
  let m := setHeaderMagic m block BLOCK_MAGIC
  let m := setHeaderUsed m block 1
  return { s with
    mem := m
    usedMemory := (s.usedMemory + (size + HEADER_SIZE)) % 2 ^ 64
    freeMemory := sub64 s.freeMemory ((size + HEADER_SIZE) % 2 ^ 64)
    allocCount := (s.allocCount + 1) % 2 ^ 64 }

/-- `kmalloc`; the result 0 is `NULL`. -/
def kmalloc (fuel : Nat) (s : State) (size : Nat) : Option (State × Nat) := do
  if s.initialized = false ∨ size = 0 then return (s, 0)
  let size := alignUp size
  let (s, block) ← searchBlock fuel s size
  if block = 0 then return (s, 0)
  let s ← takeBlock fuel s block size
  return (s, (block + HEADER_SIZE) % 2 ^ 64)

/-- `BLOCK_FROM_PTR`. -/
def blockFromPtr (ptr : Nat) : Nat := sub64 ptr HEADER_SIZE

/-- `kfree`. -/
def kfree (fuel : Nat) (s : State) (ptr : Nat) : Option State :=
  if ptr = 0 ∨ s.initialized = false then some s else
  let block := blockFromPtr ptr
  if block < s.heapStart ∨ s.heapEnd ≤ block then some s else
  if headerMagic s.mem block ≠ BLOCK_MAGIC then some s else
  if headerUsed s.mem block = 0 then some s else
  let s := { s with mem := setHeaderUsed s.mem block 0 }
  let s := addToFreeList s block
  -- `header->size` is read after `block->next` has been written over it
  let size := headerSize s.mem block
  let s := { s with
    usedMemory := sub64 s.usedMemory ((size + HEADER_SIZE) % 2 ^ 64)
    freeMemory := (s.freeMemory + (size + HEADER_SIZE)) % 2 ^ 64
    freeCount := (s.freeCount + 1) % 2 ^ 64 }
  coalesceBlocks fuel s

/-- `kcalloc`. -/
def kcalloc (fuel : Nat) (s : State) (num size : Nat) : Option (State × Nat) := do
  let total := num * size % 2 ^ 64
  let (s, ptr) ← kmalloc fuel s total
  if ptr = 0 then return (s, ptr)
  return ({ s with mem := fill (2 ^ 64) s.mem ptr total 0 }, ptr)

/-- `krealloc`. -/
def krealloc (fuel : Nat) (s : State) (ptr size : Nat) : Option (State × Nat) := do
  if ptr = 0 then return ← kmalloc fuel s size
  if size = 0 then return (← kfree fuel s ptr, 0)
  let header := blockFromPtr ptr
  if size ≤ headerSize s.mem header then return (s, ptr)
  let (s, newPtr) ← kmalloc fuel s size
  if newPtr = 0 then return (s, 0)
  let copySize := if headerSize s.mem header < size then headerSize s.mem header else size
  let s := { s with mem := copy (2 ^ 64) s.mem newPtr ptr copySize }
  let s ← kfree fuel s ptr
  return (s, newPtr)

/-- The lines `memory_integrity_check` can print after its heading. -/
inductive CheckLine where
  /-- `Free memory mismatch! Calculated=…, Recorded=…` -/
  | freeMismatch (calculated recorded : Nat)
  /-- `Memory accounting inconsistent!` -/
  | inconsistent
  /-- `Integrity check: … free blocks, … free bytes` -/
  | summary (freeCount calculatedFree : Nat)
  deriving DecidableEq, Repr

/-- The loop of `memory_integrity_check`. -/
def integrityLoop (m : Mem) : Nat → Nat → Nat → Nat → Option (Nat × Nat)
  | 0, _, _, _ => none
  | fuel + 1, curr, calculatedFree, freeCount =>
    if curr = 0 then some (calculatedFree, freeCount) else
    integrityLoop m fuel (next m curr)
      ((calculatedFree + (blockSize m curr + FREE_BLOCK_SIZE)) % 2 ^ 64)
      ((freeCount + 1) % 2 ^ 32)

/-- `memory_integrity_check`. -/
def memoryIntegrityCheck (fuel : Nat) (s : State) : Option (List CheckLine) := do
  let (calculatedFree, freeCount) ← integrityLoop s.mem fuel s.freeList 0 0
  return (if calculatedFree ≠ s.freeMemory then
      [.freeMismatch calculatedFree s.freeMemory] else []) ++
    (if (s.usedMemory + s.freeMemory) % 2 ^ 64 ≠ s.totalMemory then [.inconsistent] else []) ++
    [.summary freeCount calculatedFree]

/-! ## The callers -/

/-- An allocation a caller holds: the pointer and the number of bytes asked for. -/
structure Allocation where
  ptr : Nat
  requested : Nat
  deriving DecidableEq, Repr

/-- The heap and the allocations that have been handed out and not given back. -/
structure World where
  heap : State
  live : List Allocation

/-- What a caller can do. -/
inductive Op where
  | kmalloc (size : Nat)
  | kcalloc (num size : Nat)
  | krealloc (ptr size : Nat)
  | kfree (ptr : Nat)
  /-- Store a byte `i` bytes into an allocation. -/
  | write (ptr i : Nat) (v : UInt8)
  deriving DecidableEq, Repr

def World.drop (w : World) (ptr : Nat) : List Allocation := w.live.filter (·.ptr ≠ ptr)

/-- The allocations after a call returned `ptr` for `requested` bytes. -/
def World.obtain (w : World) (ptr requested : Nat) : List Allocation :=
  if ptr = 0 then w.live else ⟨ptr, requested⟩ :: w.live

/-- Callers keep to the interface: arguments are 64-bit values, only live pointers (or `NULL`)
are given back, and only bytes that were asked for are written. -/
def Legal (w : World) : Op → Prop
  | .kmalloc size => size < 2 ^ 64
  | .kcalloc num size => num < 2 ^ 64 ∧ size < 2 ^ 64
  | .krealloc ptr size => (ptr = 0 ∨ ∃ a ∈ w.live, a.ptr = ptr) ∧ size < 2 ^ 64
  | .kfree ptr => ptr = 0 ∨ ∃ a ∈ w.live, a.ptr = ptr
  | .write ptr i _ => ∃ a ∈ w.live, a.ptr = ptr ∧ i < a.requested

instance (w : World) (op : Op) : Decidable (Legal w op) := by
  delta Legal
  exact match op with
  | .kmalloc _ | .kcalloc _ _ | .krealloc _ _ | .kfree _ | .write _ _ _ => inferInstance

/-- One caller action, with the bookkeeping of who holds what. -/
def step (fuel : Nat) (w : World) : Op → Option World
  | .kmalloc size => (kmalloc fuel w.heap size).map fun r => ⟨r.1, w.obtain r.2 size⟩
  | .kcalloc num size =>
    (kcalloc fuel w.heap num size).map fun r => ⟨r.1, w.obtain r.2 (num * size)⟩
  | .krealloc ptr size => (krealloc fuel w.heap ptr size).map fun r =>
      ⟨r.1, if ptr ≠ 0 ∧ size = 0 then w.drop ptr
        else if r.2 = 0 then w.live else ⟨r.2, size⟩ :: w.drop ptr⟩
  | .kfree ptr => (kfree fuel w.heap ptr).map fun s => ⟨s, w.drop ptr⟩
  | .write ptr i v =>
    some { w with heap := { w.heap with mem := fill (2 ^ 64) w.heap.mem ((ptr + i) % 2 ^ 64) 1 v } }

/-- A call that returns, after however many loop iterations. -/
def Step (w : World) (op : Op) (w' : World) : Prop := ∃ fuel, step fuel w op = some w'

/-- The world right after `memory_init` on a fresh `mem_manager`. -/
def World.init (m : Mem) (memStart memEnd : Nat) : World :=
  ⟨memoryInit (State.boot m) memStart memEnd, []⟩

end OSCompas.Memory
