import OSCompas.Memory.Safety
import Mathlib.Order.Interval.Set.Basic

/-!
# Splitting and merging by themselves

`split_block` on any block of the address space, and `coalesce_blocks` and a failed `kmalloc` on
any free list without a cycle.

* `Splits`, `SplitsSafely` — the decision of `split_block`, and what is asked of its outcome;
* `covered` — the bytes of the free blocks, headers included;
* `Tidied` — what a failed call may do.

Principal results: `splitsSafely_iff`, `tidied_coalesceBlocks` and `failed_kmalloc_tidies`.
-/

set_option autoImplicit false

namespace OSCompas.Memory

open ByteMemory Chain

variable {m : Mem} {n p r size block fuel : Nat} {s s' : State} {bs cs : List Block} {b c d : Block}

/-! ## `split_block` -/

/-- The bytes of a block as its `size` says. -/
def blockExtent (m : Mem) (block : Nat) : Set Nat :=
  Set.Ico block (block + FREE_BLOCK_SIZE + blockSize m block)

/-- `remaining` in `split_block`. -/
def remaining (s : State) (block size : Nat) : Nat :=
  sub64 (sub64 (blockSize s.mem block) size) FREE_BLOCK_SIZE

/-- `split_block` decides to split. -/
def Splits (s : State) (block size : Nat) : Prop := ¬ remaining s block size < MIN_BLOCK_SIZE

/-- Where `split_block` puts the new block. -/
def newBlock (block size : Nat) : Nat := (block + FREE_BLOCK_SIZE + size) % 2 ^ 64

/-- Either nothing is changed, or the difference is exact and the two blocks share the old one's
bytes out among them. -/
structure SplitsSafely (s : State) (block size : Nat) : Prop where
  unchanged : ¬ Splits s block size → splitBlock s block size = s
  exact : Splits s block size →
    remaining s block size + size + FREE_BLOCK_SIZE = blockSize s.mem block
  inside : Splits s block size →
    blockExtent (splitBlock s block size).mem (newBlock block size) ⊆ blockExtent s.mem block
  together : Splits s block size →
    blockExtent (splitBlock s block size).mem block ∪
      blockExtent (splitBlock s block size).mem (newBlock block size) = blockExtent s.mem block

theorem splitBlock_of_not_splits (h : ¬ Splits s block size) : splitBlock s block size = s := by
  have hsmall : sub64 (sub64 (blockSize s.mem block) size) FREE_BLOCK_SIZE < MIN_BLOCK_SIZE :=
    Classical.not_not.mp h
  simp only [splitBlock, hsmall, if_true]

theorem splitBlock_mem_of_splits (h : Splits s block size) : (splitBlock s block size).mem =
    splitMem s.mem block (newBlock block size) size (remaining s block size) := by
  have hlarge : ¬ sub64 (sub64 (blockSize s.mem block) size) FREE_BLOCK_SIZE < MIN_BLOCK_SIZE := h
  simp only [splitBlock, hlarge, if_false]
  rfl

/-- With 24 bytes to spare the difference does not go around. -/
theorem remaining_of_le (h : size + FREE_BLOCK_SIZE ≤ blockSize s.mem block) :
    remaining s block size = blockSize s.mem block - size - FREE_BLOCK_SIZE :=
  sub64_sub64 h (blockSize_lt _ _)

/-- In a near fit the difference goes around, and the block is split. -/
theorem splits_of_lt (hfit : size ≤ blockSize s.mem block)
    (h : blockSize s.mem block < size + FREE_BLOCK_SIZE) :
    Splits s block size ∧ 2 ^ 64 - 24 ≤ remaining s block size := by
  have h24 : FREE_BLOCK_SIZE = 24 := rfl
  have h32 : MIN_BLOCK_SIZE = 32 := rfl
  have hlt := blockSize_lt s.mem block
  have hfirst : sub64 (blockSize s.mem block) size = blockSize s.mem block - size :=
    sub64_of_le hfit hlt
  have hrem : remaining s block size = blockSize s.mem block - size + (2 ^ 64 - 24) := by
    unfold remaining
    rw [hfirst]
    exact Nat.mod_eq_of_lt (by show blockSize s.mem block - size + (2 ^ 64 - 24) < 2 ^ 64; omega)
  have hbig : 2 ^ 64 - 24 ≤ remaining s block size := by omega
  constructor
  · exact Nat.not_lt.mpr (by omega)
  · exact hbig

/-- **`split_block` is safe exactly when the block has 24 bytes to spare.** -/
theorem splitsSafely_iff (hb : block + FREE_BLOCK_SIZE + blockSize s.mem block ≤ 2 ^ 64)
    (hfit : size ≤ blockSize s.mem block) :
    SplitsSafely s block size ↔ size + FREE_BLOCK_SIZE ≤ blockSize s.mem block := by
  have h24 : FREE_BLOCK_SIZE = 24 := rfl
  have h32 : MIN_BLOCK_SIZE = 32 := rfl
  constructor
  · intro h
    by_contra hlt
    obtain ⟨hsplit, hbig⟩ := splits_of_lt hfit (Nat.lt_of_not_le hlt)
    have hexact := h.exact hsplit
    omega
  · intro hspare
    have hrem := remaining_of_le hspare
    -- the two blocks as they are left
    have hleft : Splits s block size →
        newBlock block size = block + 24 + size ∧
        blockExtent (splitBlock s block size).mem block = Set.Ico block (block + 24 + size) ∧
        blockExtent (splitBlock s block size).mem (newBlock block size) =
          Set.Ico (block + 24 + size) (block + 24 + blockSize s.mem block) := by
      intro hsplit
      have hlarge : 32 ≤ remaining s block size := Nat.le_of_not_lt hsplit
      have hnew : newBlock block size = block + 24 + size := Nat.mod_eq_of_lt (by omega)
      have hn : newBlock block size + 24 ≤ 2 ^ 64 := by omega
      have hfront : blockSize (splitBlock s block size).mem block = size := by
        rw [splitBlock_mem_of_splits hsplit]
        exact blockSize_splitMem (by omega) hn (by omega)
      have hback : blockSize (splitBlock s block size).mem (newBlock block size) =
          remaining s block size := by
        rw [splitBlock_mem_of_splits hsplit]
        exact blockSize_splitMem_new (by omega) hn (by omega)
      have hend : block + 24 + size + FREE_BLOCK_SIZE + remaining s block size =
          block + 24 + blockSize s.mem block := by omega
      unfold blockExtent
      rw [hback, hfront, hnew, hend]
      exact ⟨rfl, rfl, rfl⟩
    refine ⟨splitBlock_of_not_splits, fun _ => by omega, fun hsplit => ?_, fun hsplit => ?_⟩
    · obtain ⟨-, -, hright⟩ := hleft hsplit
      rw [hright]
      exact Set.Ico_subset_Ico_left (by omega)
    · obtain ⟨-, hfront, hright⟩ := hleft hsplit
      rw [hfront, hright]
      exact Set.Ico_union_Ico_eq_Ico (by omega) (by omega)

/-- A heap of one block, right after `memory_init`. -/
def oneBlock (memEnd : Nat) : State := memoryInit (State.boot fun _ => 0) 4096 memEnd

theorem splitsSafely_oneBlock : SplitsSafely (oneBlock 8192) 4096 32 := by
  have hsize : blockSize (oneBlock 8192).mem 4096 = 4072 := by decide +kernel
  exact (splitsSafely_iff (by rw [hsize]; decide) (by rw [hsize]; decide)).mpr
    (by rw [hsize]; decide)

/-- A block of 40 bytes is the best fit for 32, and is split. -/
theorem not_splitsSafely_nearFit : findBestFit 8 (oneBlock 4160) 32 = some 4096 ∧
    blockSize (oneBlock 4160).mem 4096 = 40 ∧ Splits (oneBlock 4160) 4096 32 ∧
    ¬ SplitsSafely (oneBlock 4160) 4096 32 := by
  have hsize : blockSize (oneBlock 4160).mem 4096 = 40 := by decide +kernel
  have hsplit : Splits (oneBlock 4160) 4096 32 :=
    (splits_of_lt (by rw [hsize]; decide) (by rw [hsize]; decide)).1
  refine ⟨by decide +kernel, hsize, hsplit, fun h => ?_⟩
  have hexact := h.exact hsplit
  rw [hsize] at hexact
  have h24 : FREE_BLOCK_SIZE = 24 := rfl
  omega

/-! ## Merging -/

/-- The bytes of the blocks, headers included. -/
def covered (bs : List Block) : Set Nat :=
  {x | ∃ b ∈ bs, x ∈ Set.Ico b.addr (b.addr + FREE_BLOCK_SIZE + b.size)}

theorem covered_cons (b : Block) (bs : List Block) :
    covered (b :: bs) = Set.Ico b.addr (b.addr + FREE_BLOCK_SIZE + b.size) ∪ covered bs := by
  ext x
  simp [covered]

/-- Two blocks that meet cover what the one they merge into covers. -/
theorem covered_absorb (hadj : c.addr + FREE_BLOCK_SIZE + c.size = d.addr) (bs : List Block) :
    covered (⟨c.addr, c.size + (FREE_BLOCK_SIZE + d.size)⟩ :: bs) = covered (c :: d :: bs) := by
  have hend : c.addr + FREE_BLOCK_SIZE + (c.size + (FREE_BLOCK_SIZE + d.size)) =
      d.addr + FREE_BLOCK_SIZE + d.size := by omega
  rw [covered_cons, covered_cons, covered_cons, ← Set.union_assoc, hend, ← hadj,
    Set.Ico_union_Ico_eq_Ico (by omega) (by omega)]

theorem covered_mergeFrom (c : Block) (bs : List Block) :
    covered (mergeFrom c bs) = covered (c :: bs) := by
  induction bs generalizing c with
  | nil => rfl
  | cons b bs ih =>
    rw [mergeFrom]
    split
    · rename_i hadj
      rw [ih]
      exact covered_absorb hadj bs
    · rw [covered_cons, ih, ← covered_cons]

/-- **Merging covers the same bytes.** -/
theorem covered_merge (bs : List Block) : covered (merge bs) = covered bs := by
  cases bs with
  | nil => rfl
  | cons c bs => exact covered_mergeFrom c bs

theorem mergeFrom_sublist (c : Block) (bs : List Block) :
    ((mergeFrom c bs).map Block.addr).Sublist ((c :: bs).map Block.addr) := by
  induction bs generalizing c with
  | nil => exact .refl _
  | cons b bs ih =>
    rw [mergeFrom]
    split
    · -- the block that is absorbed leaves the list
      exact (ih ⟨c.addr, c.size + (24 + b.size)⟩).trans ((List.sublist_cons_self _ _).cons_cons _)
    · exact (ih b).cons_cons _

/-- The blocks that are left are among those that were there. -/
theorem merge_sublist (bs : List Block) :
    ((merge bs).map Block.addr).Sublist (bs.map Block.addr) := by
  cases bs with
  | nil => exact .refl _
  | cons c bs => exact mergeFrom_sublist c bs

/-! ## A failed `kmalloc` -/

/-- The free list `bs` has at most been merged: the blocks left cover the same bytes, no byte off
them is touched, and `free_memory` has grown by a header for each block that is gone. -/
structure Tidied (bs : List Block) (s s' : State) (cs : List Block) : Prop where
  freeList : FreeList s'.mem s'.freeList cs
  laid : Laid cs
  blocks : (cs.map Block.addr).Sublist (bs.map Block.addr)
  covered : covered cs = covered bs
  outside : ∀ x < 2 ^ 64, x ∉ Memory.covered bs → s'.mem x = s.mem x
  freeMemory : s'.freeMemory =
    (s.freeMemory + FREE_BLOCK_SIZE * (bs.length - cs.length)) % 2 ^ 64
  rest : s' = { s with mem := s'.mem, freeList := s'.freeList, freeMemory := s'.freeMemory }

theorem Tidied.refl (hl : FreeList s.mem s.freeList bs) (hlay : Laid bs)
    (hf : s.freeMemory < 2 ^ 64) : Tidied bs s s bs := by
  refine ⟨hl, hlay, .refl _, rfl, fun _ _ _ => rfl, ?_, rfl⟩
  rw [Nat.sub_self, Nat.mul_zero, Nat.add_zero, Nat.mod_eq_of_lt hf]

/-- A byte off the blocks lies apart from each of them. -/
theorem Untouched.byte {m' : Mem} {x : Nat} (h : Untouched bs m m') (hx : x < 2 ^ 64)
    (hout : x ∉ covered bs) : m' x = m x := by
  refine h ⟨x, 1⟩ Nat.one_pos (Nat.succ_le_of_lt hx) ?_ x (Nat.le_refl x) (Nat.lt_succ_self x)
  intro d hd
  have h24 : FREE_BLOCK_SIZE = 24 := rfl
  show d.addr + (24 + d.size) ≤ x ∨ x + 1 ≤ d.addr
  by_contra hnot
  apply hout
  refine ⟨d, hd, ?_, ?_⟩ <;> omega

theorem coalesceLoop_freeMemory (h : coalesceLoop fuel s p = some s')
    (hf : s.freeMemory < 2 ^ 64) : s'.freeMemory < 2 ^ 64 := by
  induction fuel generalizing s p with
  | zero => cases h
  | succ fuel ih =>
    rw [coalesceLoop] at h
    split at h
    · cases h
      exact hf
    · dsimp only at h
      split at h
      · exact ih h (Nat.mod_lt _ (by decide))
      · exact ih h hf

/-- **`coalesce_blocks` tidies up.** -/
theorem tidied_coalesceBlocks (h : coalesceBlocks fuel s = some s')
    (hl : FreeList s.mem s.freeList bs) (hlay : Laid bs) (hf : s.freeMemory < 2 ^ 64) :
    Tidied bs s s' (merge bs) := by
  obtain ⟨hl', hframe, hfree⟩ := coalesceBlocks_spec h hl hlay
  have hlt : s'.freeMemory < 2 ^ 64 := coalesceLoop_freeMemory h hf
  have hlen := merge_length_le bs
  refine ⟨hl', hlay.merge, merge_sublist bs, covered_merge bs, fun x hx hout => ?_, ?_,
    hframe.rest⟩
  · exact hframe.outside.byte hx hout
  · have h24 : FREE_BLOCK_SIZE = 24 := rfl
    have hsplit : s.freeMemory + 24 * bs.length =
        s.freeMemory + 24 * (bs.length - (merge bs).length) + 24 * (merge bs).length := by omega
    rw [hsplit] at hfree
    have hcancel := Nat.ModEq.add_right_cancel' _ hfree
    rw [h24, ← Nat.mod_eq_of_lt hlt]
    exact hcancel

/-- A search that finds nothing has at most merged; a search that finds something does not find
`NULL`. -/
theorem tidied_searchBlock {r : Nat} (h : searchBlock fuel s size = some (s', r))
    (hl : FreeList s.mem s.freeList bs) (hlay : Laid bs) (hf : s.freeMemory < 2 ^ 64) :
    ∃ cs, Tidied bs s s' cs ∧ (r = 0 ∨ ∃ c ∈ cs, r = c.addr) := by
  unfold searchBlock at h
  obtain ⟨r₁, h₁, h⟩ := Option.bind_eq_some_iff.mp h
  split at h
  · cases h
    refine ⟨bs, .refl hl hlay hf, ?_⟩
    rcases findBestFit_of_laid h₁ hl hlay with ⟨hr, -⟩ | ⟨b, hb, hr, -⟩
    · exact .inl hr
    · exact .inr ⟨b, hb, hr⟩
  · obtain ⟨s₁, hc, h⟩ := Option.bind_eq_some_iff.mp h
    obtain ⟨r₂, h₂, h⟩ := Option.bind_eq_some_iff.mp h
    cases h
    have ht := tidied_coalesceBlocks hc hl hlay hf
    refine ⟨merge bs, ht, ?_⟩
    rcases findBestFit_of_laid h₂ ht.freeList ht.laid with ⟨hr, -⟩ | ⟨b, hb, hr, -⟩
    · exact .inl hr
    · exact .inr ⟨b, hb, hr⟩

theorem tidied_kmalloc (h : kmalloc fuel s n = some (s', 0))
    (hl : FreeList s.mem s.freeList bs) (hlay : Laid bs) (hf : s.freeMemory < 2 ^ 64) :
    ∃ cs, Tidied bs s s' cs := by
  unfold kmalloc at h
  split at h
  · cases h
    exact ⟨bs, .refl hl hlay hf⟩
  · obtain ⟨⟨s₁, r⟩, hs, h⟩ := Option.bind_eq_some_iff.mp h
    obtain ⟨cs, ht, hr⟩ := tidied_searchBlock hs hl hlay hf
    dsimp only at h
    split at h
    · cases h
      exact ⟨cs, ht⟩
    · rename_i hr0
      -- a pointer behind the header of a block is not `NULL`
      obtain ⟨c, hc, rfl⟩ := hr.resolve_left hr0
      obtain ⟨s₂, -, h⟩ := Option.bind_eq_some_iff.mp h
      have hbound := ht.laid.bound c hc
      have h16 : HEADER_SIZE = 16 := rfl
      have hp : (c.addr + HEADER_SIZE) % 2 ^ 64 = 0 := congrArg Prod.snd (Option.some.inj h)
      rw [Nat.mod_eq_of_lt (by omega)] at hp
      omega

/-- **A failed `kmalloc` only tidies up**, and so does `coalesce_blocks`, which ends. -/
theorem failed_kmalloc_tidies (hl : FreeList s.mem s.freeList bs) (hlay : Laid bs)
    (hf : s.freeMemory < 2 ^ 64) :
    (∀ fuel n s', kmalloc fuel s n = some (s', 0) → ∃ cs, Tidied bs s s' cs) ∧
    (∀ fuel s', coalesceBlocks fuel s = some s' → ∃ cs, Tidied bs s s' cs) ∧
    ∀ fuel, bs.length < fuel → ∃ s', coalesceBlocks fuel s = some s' :=
  ⟨fun _ _ _ h => tidied_kmalloc h hl hlay hf,
    fun _ _ h => ⟨_, tidied_coalesceBlocks h hl hlay hf⟩,
    fun _ hfuel => coalesceLoop_ends hl hlay hfuel⟩

/-- A heap of two free blocks that meet. -/
def twoBlocks : State where
  mem := setNext (setBlockSize (setNext (setBlockSize (fun _ => 0) 4096 40) 4096 4160) 4160 40) 4160 0
  freeList := 4096
  totalMemory := 128
  freeMemory := 80
  usedMemory := 0
  allocCount := 0
  freeCount := 0
  heapStart := 4096
  heapEnd := 4224
  initialized := true

/-- A request for 200 bytes fails and leaves one block of 104. -/
theorem failed_kmalloc_twoBlocks : ∃ s' cs, kmalloc 8 twoBlocks 200 = some (s', 0) ∧
    Tidied [⟨4096, 40⟩, ⟨4160, 40⟩] twoBlocks s' cs ∧ s'.freeMemory = 104 := by
  have hl : FreeList twoBlocks.mem twoBlocks.freeList [⟨4096, 40⟩, ⟨4160, 40⟩] :=
    walk_spec (show walk _ 8 4096 = _ by decide +kernel)
  have hlay : Laid [⟨4096, 40⟩, ⟨4160, 40⟩] := ⟨by decide, by decide⟩
  have hk : (kmalloc 8 twoBlocks 200).map (fun q => (q.2, q.1.freeMemory)) = some (0, 104) := by
    decide +kernel
  obtain ⟨⟨s', p⟩, hs, hobs⟩ := Option.map_eq_some_iff.mp hk
  obtain ⟨rfl, hfree⟩ := Prod.mk.inj hobs
  obtain ⟨cs, htidied⟩ := (failed_kmalloc_tidies hl hlay (by decide)).1 8 200 s' hs
  exact ⟨s', cs, hs, htidied, hfree⟩

end OSCompas.Memory
