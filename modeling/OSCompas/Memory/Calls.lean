import OSCompas.Memory.Layout

/-!
# What one call does to the layout

`kmalloc`, `kcalloc`, `krealloc` and `kfree` as layout steps, under the conditions under which
they are: the block `kmalloc` picks is 24 bytes larger than it needs to be (`PicksWell`), and the
`size` field of a block given back stays off everything else (`FitsBack`).

* `SearchOk`, `SearchFails` — the free list before a search, and what will come of it;
* `Evolves` — the call kept the invariant and moved along `Layout.Steps`.

Principal results: `kmalloc_moves`, `kfree_moves`, `kcalloc_moves`, `krealloc_moves`, and
`kmalloc_ends`, `kfree_ends`, `krealloc_ends`: the calls return.
-/

set_option autoImplicit false

namespace OSCompas.Memory

open ByteMemory Chain

variable {m m' : Mem} {k n p r size fuel requested : Nat} {s s' : State}
variable {bs cs pre post : List Block} {b c d : Block} {l l' : Layout} {hs : List Held} {x y : Held}

/-! ## Searching -/

/-- Every block that is large enough is so with 24 bytes to spare, and `requested` bytes fit into
the aligned size. -/
def PicksWell (requested size : Nat) (bs : List Block) : Prop :=
  ∀ b ∈ bs, size ≤ b.size → requested ≤ size ∧ size + 24 ≤ b.size

/-- No block is large enough. -/
def NoFit (size : Nat) (bs : List Block) : Prop := ∀ b ∈ bs, b.size < size

/-- A search for `n` bytes, of which `requested` are meant to be used, picks well: on the free list
as it is or, if nothing fits there, on the merged list. -/
def SearchOk (s : State) (requested n : Nat) : Prop :=
  ∀ bs, FreeList s.mem s.freeList bs → PicksWell requested (alignUp n) bs ∧
    (NoFit (alignUp n) bs → PicksWell requested (alignUp n) (merge bs))

/-- A search for `n` bytes finds nothing, even on the merged list. -/
def SearchFails (s : State) (n : Nat) : Prop :=
  ∀ bs, FreeList s.mem s.freeList bs → NoFit (alignUp n) bs ∧ NoFit (alignUp n) (merge bs)

theorem findBestFit_of_laid (h : findBestFit fuel s size = some r)
    (hl : FreeList s.mem s.freeList bs) (hlaid : Laid bs) :
    (r = 0 ∧ NoFit size bs) ∨ ∃ b ∈ bs, r = b.addr ∧ size ≤ b.size := by
  rcases findBestFit_spec h hl with ⟨hr, hno⟩ | ⟨b, hb, hr, hfit, -⟩
  · refine .inl ⟨hr, fun b hb => ?_⟩
    have h1 := hno b hb
    have h2 := hlaid.bound b hb
    unfold SIZE_MAX at h1
    omega
  · exact .inr ⟨b, hb, hr, hfit⟩

/-- **The search of `kmalloc`**: on the list as it is, or on the merged list if nothing fits. -/
theorem searchBlock_spec (h : HeapInv s l) (hs : searchBlock fuel s size = some (s', r)) :
    ∃ cs, HeapInv s' ⟨cs, l.held⟩ ∧ Layout.Steps l ⟨cs, l.held⟩ ∧ Frame l.free s s' ∧
      Inside cs l.free ∧ (cs = l.free ∨ (NoFit size l.free ∧ cs = merge l.free)) ∧
      ((r = 0 ∧ NoFit size cs) ∨ ∃ b ∈ cs, r = b.addr ∧ size ≤ b.size) := by
  unfold searchBlock at hs
  obtain ⟨r1, hr1, hs⟩ := Option.bind_eq_some_iff.mp hs
  split at hs
  · rename_i hne
    cases hs
    refine ⟨l.free, h, .refl, .refl _ _, .refl _, .inl rfl, ?_⟩
    exact findBestFit_of_laid hr1 h.freeList h.laid
  · rename_i heq
    obtain ⟨s1, hc, hs⟩ := Option.bind_eq_some_iff.mp hs
    obtain ⟨r2, hr2, hs⟩ := Option.bind_eq_some_iff.mp hs
    cases hs
    have hco := h.coalesce hc
    have hno : NoFit size l.free := by
      rcases findBestFit_of_laid hr1 h.freeList h.laid with ⟨-, hno⟩ | ⟨b, hb, rfl, -⟩
      · exact hno
      · exact absurd (h.freeList.nonNull b hb) heq
    refine ⟨merge l.free, hco, .single (.merge l), (coalesceBlocks_spec hc h.freeList h.laid).2.1,
      inside_merge _, .inr ⟨hno, rfl⟩, ?_⟩
    exact findBestFit_of_laid hr2 hco.freeList hco.laid

/-! ## `kmalloc` -/

/-- `memory_init` is not undone. -/
structure SameRegion (s s' : State) : Prop where
  heapStart : s'.heapStart = s.heapStart
  heapEnd : s'.heapEnd = s.heapEnd
  totalMemory : s'.totalMemory = s.totalMemory

theorem SameRegion.refl (s : State) : SameRegion s s := ⟨rfl, rfl, rfl⟩

theorem SameRegion.trans {s'' : State} (h : SameRegion s s') (h' : SameRegion s' s'') :
    SameRegion s s'' :=
  ⟨h'.heapStart.trans h.heapStart, h'.heapEnd.trans h.heapEnd, h'.totalMemory.trans h.totalMemory⟩

theorem SameRegion.setMem (h : SameRegion s s') : SameRegion s { s' with mem := m } :=
  ⟨h.heapStart, h.heapEnd, h.totalMemory⟩

theorem Frame.sameRegion (h : Frame bs s s') : SameRegion s s' :=
  ⟨h.heapStart, h.heapEnd, h.totalMemory⟩

/-- The call led from the layout `l` to the layout `l'`. -/
structure Evolves (s : State) (l : Layout) (s' : State) (l' : Layout) : Prop where
  inv : HeapInv s' l'
  steps : Layout.Steps l l'
  region : SameRegion s s'

/-- The same without touching anything but free blocks. -/
structure Grows (s : State) (l : Layout) (s' : State) (l' : Layout) : Prop
    extends Evolves s l s' l' where
  outside : Untouched l.free s.mem s'.mem
  inside : Inside l'.free l.free
  length_le : l'.free.length ≤ l.free.length

theorem Evolves.refl (h : HeapInv s l) : Evolves s l s l := ⟨h, .refl, .refl s⟩

theorem Grows.refl (h : HeapInv s l) : Grows s l s l :=
  ⟨.refl h, fun _ _ _ _ => .refl _ _ _, .refl _, Nat.le_refl _⟩

theorem cutOff_length_le (c : Block) (size : Nat) : (cutOff c size).length ≤ 1 := by
  unfold cutOff
  split <;> simp

theorem takeBlock_region (ht : takeBlock fuel s c.addr size = some s')
    (h : HeapInv s ⟨pre ++ c :: post, hs⟩) (hfit : size + 24 ≤ c.size) (hmod : size % 8 = 0) :
    SameRegion s s' ∧ Untouched (pre ++ c :: post) s.mem s'.mem := by
  have hsp := h.split hfit hmod
  have hf1 := (splitBlock_spec h.freeList h.laid hfit).2.1
  have hcb := h.block_bound (b := c) (by simp)
  have hend := h.heapEnd_lt
  obtain ⟨s₁, hr, rfl⟩ := takeBlock_parts ht
  have hf2 := (removeFromFreeList_spec hr hsp.freeList hsp.laid).2.1
  have hin : Inside (pre ++ shrunk c size :: (cutOff c size ++ post)) (pre ++ c :: post) := by
    intro t _ hap d hd
    simp only [List.mem_append, List.mem_cons] at hd
    rcases hd with hd | rfl | hd | hd
    · exact hap d (by simp [hd])
    · exact (hap c (by simp)).within (shrunk_within hfit)
    · exact (hap c (by simp)).within (cutOff_within hfit hd).1
    · exact hap d (by simp [hd])
  have hf := hf1.trans hf2 hin
  refine ⟨⟨hf.heapStart, hf.heapEnd, hf.totalMemory⟩, fun t ht hhi hap => ?_⟩
  have hct := Block.apart_iff.mp (hap c (by simp))
  exact (hf.outside t ht hhi hap).trans (agreeOn_headerMem (by omega) hhi (by omega))

/-- The merged list is a move away, or none. -/
theorem moves_of_merge {e : Nat} (h : cs = l.free ∨ cs = merge l.free) :
    Layout.Moves e l ⟨cs, l.held⟩ := by
  rcases h with rfl | rfl
  · exact .refl
  · exact .single (.merge l)

/-- **`kmalloc` fails and at most merges, or hands out the front of a block.** -/
theorem kmalloc_moves (h : HeapInv s l) (hk : kmalloc fuel s n = some (s', p))
    (hle : n ≤ requested) (hok : n = 0 ∨ SearchOk s requested n) :
    (p = 0 ∧ ∃ cs, Grows s l s' ⟨cs, l.held⟩ ∧ Layout.Moves s.heapEnd l ⟨cs, l.held⟩) ∨
      ∃ cs x, Grows s l s' ⟨cs, x :: l.held⟩ ∧ Layout.Moves s.heapEnd l ⟨cs, x :: l.held⟩ ∧
        x.allocation = ⟨p, requested⟩ ∧ x.size = alignUp n ∧
        (∀ t : Span, 0 < t.len → (∀ b ∈ l.free, b.span.Apart t) → x.span.Apart t) := by
  unfold kmalloc at hk
  split at hk
  · cases hk
    exact .inl ⟨rfl, l.free, .refl h, .refl⟩
  · rename_i hn
    simp only [h.initialized, Bool.true_eq_false, false_or] at hn
    have hok := hok.resolve_left hn
    obtain ⟨⟨s1, r⟩, hsb, hk⟩ := Option.bind_eq_some_iff.mp hk
    obtain ⟨cs, hinv, hsteps, hfr, hins, hcs, hr⟩ := searchBlock_spec h hsb
    obtain ⟨hok1, hok2⟩ := hok l.free h.freeList
    have hpw : PicksWell requested (alignUp n) cs := by
      rcases hcs with rfl | ⟨hno, rfl⟩
      · exact hok1
      · exact hok2 hno
    have hlen : cs.length ≤ l.free.length := by
      rcases hcs with rfl | ⟨-, rfl⟩
      · exact Nat.le_refl _
      · exact merge_length_le _
    have hmoves : Layout.Moves s.heapEnd l ⟨cs, l.held⟩ := moves_of_merge (hcs.imp_right And.right)
    simp only at hk
    split at hk
    · cases hk
      exact .inl ⟨rfl, cs, ⟨⟨hinv, hsteps, hfr.sameRegion⟩, hfr.outside, hins, hlen⟩, hmoves⟩
    · rename_i hr0
      rcases hr with ⟨hr, -⟩ | ⟨c, hc, rfl, hfit⟩
      · exact absurd hr hr0
      · obtain ⟨s2, ht, hk⟩ := Option.bind_eq_some_iff.mp hk
        cases hk
        obtain ⟨hreq, hspare⟩ := hpw c hc hfit
        obtain ⟨pre, post, rfl⟩ := List.append_of_mem hc
        have hcb := hinv.block_bound hc
        have hend := hinv.heapEnd_lt
        have hmod := alignUp_mod n
        have hpos : 8 ≤ alignUp n := by omega
        obtain ⟨hreg, hout⟩ := takeBlock_region ht hinv hspare hmod
        have hcut : Inside (pre ++ (cutOff c (alignUp n) ++ post)) (pre ++ c :: post) := by
          intro t _ hap d hd
          simp only [List.mem_append] at hd
          rcases hd with hd | hd | hd
          · exact hap d (by simp [hd])
          · exact (hap c hc).within (cutOff_within hspare hd).1
          · exact hap d (by simp [hd])
        refine .inr ⟨pre ++ (cutOff c (alignUp n) ++ post), ⟨c.addr, alignUp n, requested⟩,
          ⟨⟨hinv.take ht hspare hmod hpos hreq, hsteps.tail (.take hspare hmod),
            hfr.sameRegion.trans hreg⟩, hfr.outside.trans hout hins, hcut.trans hins, ?_⟩,
          hmoves.tail (.take hspare hmod), ?_, rfl, fun t ht hap => ?_⟩
        · have := cutOff_length_le c (alignUp n)
          simp only [List.length_append, List.length_cons] at hlen ⊢
          omega
        · unfold Held.allocation
          rw [show HEADER_SIZE = 16 from rfl, Nat.mod_eq_of_lt (by omega)]
        · have hct := Block.apart_iff.mp (hins t ht hap c hc)
          refine Held.apart_iff.mpr ?_
          simp only
          omega

theorem kmalloc_spec (h : HeapInv s l) (hk : kmalloc fuel s n = some (s', p))
    (hle : n ≤ requested) (hok : n = 0 ∨ SearchOk s requested n) :
    (p = 0 ∧ ∃ cs, Grows s l s' ⟨cs, l.held⟩) ∨
      ∃ cs x, Grows s l s' ⟨cs, x :: l.held⟩ ∧ x.allocation = ⟨p, requested⟩ ∧
        x.size = alignUp n ∧ (∀ t : Span, 0 < t.len → (∀ b ∈ l.free, b.span.Apart t) →
          x.span.Apart t) := by
  rcases kmalloc_moves h hk hle hok with ⟨hp, cs, hg, -⟩ | ⟨cs, x, hg, -, hx⟩
  · exact .inl ⟨hp, cs, hg⟩
  · exact .inr ⟨cs, x, hg, hx⟩

theorem searchBlock_ends (h : HeapInv s l) (hf : l.free.length < fuel) (size : Nat) :
    ∃ q, searchBlock fuel s size = some q := by
  obtain ⟨r, hr⟩ := findBestFit_ends h.freeList hf size
  obtain ⟨s1, hc⟩ := coalesceLoop_ends h.freeList h.laid hf
  have hinv := h.coalesce hc
  obtain ⟨r', hr'⟩ := findBestFit_ends hinv.freeList
    (Nat.lt_of_le_of_lt (merge_length_le _) hf) size
  unfold searchBlock coalesceBlocks
  rw [hr]
  by_cases h0 : r = 0
  · simp [h0, hc, hr']
  · simp [h0]

theorem takeBlock_ends (h : HeapInv s ⟨pre ++ c :: post, hs⟩) (hfit : size + 24 ≤ c.size)
    (hmod : size % 8 = 0) (hf : (pre ++ c :: post).length + 1 < fuel) :
    ∃ s', takeBlock fuel s c.addr size = some s' := by
  have hsp := h.split hfit hmod
  have hcut := cutOff_length_le c size
  have hlen : (pre ++ shrunk c size :: (cutOff c size ++ post)).length < fuel := by
    simp only [List.length_append, List.length_cons] at hf ⊢
    omega
  obtain ⟨s1, hr⟩ := removeFromFreeList_ends (k := c.addr) hsp.freeList hlen
  unfold takeBlock
  simp only [hr, Option.bind_eq_bind, Option.bind_some]
  exact ⟨_, rfl⟩

/-- **A call to `kmalloc` returns.** -/
theorem kmalloc_ends (h : HeapInv s l) (hok : n = 0 ∨ SearchOk s requested n)
    (hf : l.free.length + 1 < fuel) : ∃ q, kmalloc fuel s n = some q := by
  unfold kmalloc
  split
  · exact ⟨_, rfl⟩
  · rename_i hn
    simp only [h.initialized, Bool.true_eq_false, false_or] at hn
    obtain ⟨⟨s1, r⟩, hsb⟩ := searchBlock_ends h (Nat.lt_of_succ_lt hf) (alignUp n)
    obtain ⟨cs, hinv, -, -, -, hcs, hr⟩ := searchBlock_spec h hsb
    obtain ⟨hok1, hok2⟩ := hok.resolve_left hn l.free h.freeList
    simp only [hsb, Option.bind_eq_bind, Option.bind_some]
    split
    · exact ⟨_, rfl⟩
    · rename_i hr0
      rcases hr with ⟨hr, -⟩ | ⟨c, hc, rfl, hfit⟩
      · exact absurd hr hr0
      · have hpw : PicksWell requested (alignUp n) cs := by
          rcases hcs with rfl | ⟨hno, rfl⟩
          · exact hok1
          · exact hok2 hno
        have hlen : cs.length + 1 < fuel := by
          rcases hcs with rfl | ⟨-, rfl⟩
          · exact hf
          · have := merge_length_le l.free
            omega
        obtain ⟨pre, post, rfl⟩ := List.append_of_mem hc
        obtain ⟨s2, ht⟩ := takeBlock_ends hinv (hpw c hc hfit).2 (alignUp_mod n) hlen
        rw [ht]
        exact ⟨_, rfl⟩

/-! ## `kfree` -/

/-- The allocation at `ptr`, once given back, would stay inside the heap and off every free block
and every other allocation. -/
def FitsBack (w : World) (ptr : Nat) : Prop :=
  InHeap w.heap (freedSpan w.heap.mem (blockFromPtr ptr)) ∧
  (∀ b, OnChain (next w.heap.mem) 0 w.heap.freeList b →
    (freedSpan w.heap.mem (blockFromPtr ptr)).Apart
      ⟨b, FREE_BLOCK_SIZE + blockSize w.heap.mem b⟩) ∧
  ∀ a ∈ w.live, a.ptr ≠ ptr → (freedSpan w.heap.mem (blockFromPtr ptr)).Apart
    ⟨blockFromPtr a.ptr, HEADER_SIZE + headerSize w.heap.mem (blockFromPtr a.ptr)⟩

/-- The same, said on a layout. -/
structure Returns (s : State) (bs : List Block) (hs : List Held) (x : Held) : Prop where
  inHeap : InHeap s (freedSpan s.mem x.addr)
  free : ∀ b ∈ bs, (freedSpan s.mem x.addr).Apart b.span
  held : ∀ y ∈ hs, (freedSpan s.mem x.addr).Apart y.span

theorem blockFromPtr_add (h : p + 16 ≤ 2 ^ 64) : blockFromPtr (p + HEADER_SIZE) = p := by
  unfold blockFromPtr sub64
  rw [show HEADER_SIZE = 16 from rfl]
  omega

/-- `kfree` before it merges. -/
def giveBack (s : State) (block : Nat) : State :=
  let mem := freedMem s.mem block s.freeList
  { s with
    mem := mem
    freeList := block
    usedMemory := sub64 s.usedMemory ((headerSize mem block + HEADER_SIZE) % 2 ^ 64)
    freeMemory := (s.freeMemory + (headerSize mem block + HEADER_SIZE)) % 2 ^ 64
    freeCount := (s.freeCount + 1) % 2 ^ 64 }

/-- On a live pointer all checks of `kfree` pass. -/
theorem kfree_eq (h : HeapInv s l) (hx : x ∈ l.held) :
    kfree fuel s (x.addr + HEADER_SIZE) = coalesceBlocks fuel (giveBack s x.addr) := by
  have h24 := h.held_header hx
  obtain ⟨h1, h2, -⟩ := h.held_inHeap hx
  have hok := h.held x hx
  have hlo : ¬ (x.addr < s.heapStart ∨ s.heapEnd ≤ x.addr) := by
    have h3 : s.heapStart ≤ x.addr := h1
    have h4 : x.addr + (16 + x.size) ≤ s.heapEnd := h2
    omega
  have h0 : ¬ (x.addr + HEADER_SIZE = 0 ∨ s.initialized = false) := by
    rw [h.initialized]
    simp
  unfold kfree
  rw [if_neg h0, blockFromPtr_add (by omega)]
  simp only
  rw [if_neg hlo, if_neg (not_not.mpr hok.magic), if_neg (by rw [hok.used]; decide)]
  rfl

theorem giveBack_inv {pre post : List Held} (h : HeapInv s ⟨bs, pre ++ x :: post⟩)
    (hret : Returns s bs (pre ++ post) x) :
    HeapInv (giveBack s x.addr) ⟨⟨x.addr, freedSize s.mem x.addr⟩ :: bs, pre ++ post⟩ :=
  h.release hret.inHeap hret.free hret.held

/-- **`kfree` takes the allocation back and merges.** -/
theorem kfree_moves {pre post : List Held} (h : HeapInv s ⟨bs, pre ++ x :: post⟩)
    (hk : kfree fuel s (x.addr + HEADER_SIZE) = some s') (hret : Returns s bs (pre ++ post) x) :
    ∃ cs, Evolves s ⟨bs, pre ++ x :: post⟩ s' ⟨cs, pre ++ post⟩ ∧
      Layout.Moves s.heapEnd ⟨bs, pre ++ x :: post⟩ ⟨cs, pre ++ post⟩ := by
  have hx : x ∈ pre ++ x :: post := by simp
  rw [kfree_eq h hx] at hk
  have hgive := giveBack_inv h hret
  have hlow := freedSize_low (h.held_header hx) (h.held x hx).magic
  have hmoves : Layout.Moves s.heapEnd ⟨bs, pre ++ x :: post⟩ ⟨_, pre ++ post⟩ :=
    .tail (.single (.release hlow hret.inHeap.2.1)) (.merge _)
  have hfr := (coalesceBlocks_spec hk hgive.freeList hgive.laid).2.1
  exact ⟨_, ⟨hgive.coalesce hk, hmoves.steps, ⟨hfr.heapStart, hfr.heapEnd, hfr.totalMemory⟩⟩,
    hmoves⟩

/-- **A call to `kfree` returns.** -/
theorem kfree_ends {pre post : List Held} (h : HeapInv s ⟨bs, pre ++ x :: post⟩)
    (hret : Returns s bs (pre ++ post) x) (hf : bs.length + 1 < fuel) :
    ∃ s', kfree fuel s (x.addr + HEADER_SIZE) = some s' := by
  rw [kfree_eq h (by simp)]
  have hgive := giveBack_inv h hret
  exact coalesceLoop_ends hgive.freeList hgive.laid hf

/-! ## `kcalloc` -/

/-- **`kcalloc` is `kmalloc` followed by writes into the new allocation.** -/
theorem kcalloc_moves {num : Nat} (h : HeapInv s l) (hk : kcalloc fuel s num size = some (s', p))
    (hok : num * size % 2 ^ 64 = 0 ∨ SearchOk s (num * size) (num * size % 2 ^ 64)) :
    (p = 0 ∧ ∃ cs, Evolves s l s' ⟨cs, l.held⟩ ∧ Layout.Moves s.heapEnd l ⟨cs, l.held⟩) ∨
      ∃ cs x, Evolves s l s' ⟨cs, x :: l.held⟩ ∧ Layout.Moves s.heapEnd l ⟨cs, x :: l.held⟩ ∧
        x.allocation = ⟨p, num * size⟩ := by
  have hle : num * size % 2 ^ 64 ≤ num * size := Nat.mod_le _ _
  unfold kcalloc at hk
  obtain ⟨⟨s1, q⟩, hm, hk⟩ := Option.bind_eq_some_iff.mp hk
  simp only at hk
  rcases kmalloc_moves h hm hle hok with ⟨rfl, cs, hg, hmoves⟩ | ⟨cs, x, hg, hmoves, hx, -, -⟩
  · rw [if_pos rfl] at hk
    cases hk
    exact .inl ⟨rfl, cs, hg.toEvolves, hmoves⟩
  · have hxm : x ∈ x :: l.held := by simp
    have hreq := (hg.inv.held x hxm).requested_le
    have hxb := hg.inv.held_bound hxm
    have hend := hg.inv.heapEnd_lt
    obtain ⟨rfl, hr⟩ := Allocation.mk.inj hx
    rw [if_neg (by simp)] at hk
    cases hk
    refine .inr ⟨cs, x, ⟨hg.inv.payload hxm fun t k ht hap => ?_, hg.steps,
      hg.region.setMem⟩, hmoves, hx⟩
    have h16 : x.addr + HEADER_SIZE = x.addr + 16 := rfl
    exact agreeOn_fill (by omega) ht (by omega)

theorem kcalloc_ends {num : Nat} (h : HeapInv s l)
    (hok : num * size % 2 ^ 64 = 0 ∨ SearchOk s (num * size) (num * size % 2 ^ 64))
    (hf : l.free.length + 1 < fuel) : ∃ q, kcalloc fuel s num size = some q := by
  obtain ⟨⟨s1, q⟩, hm⟩ := kmalloc_ends h hok hf
  unfold kcalloc
  simp only [hm, Option.bind_eq_bind, Option.bind_some]
  split <;> exact ⟨_, rfl⟩

/-! ## `krealloc` -/

theorem kmalloc_fails (h : HeapInv s l) (hk : kmalloc fuel s n = some (s', p))
    (hno : SearchFails s n) : p = 0 := by
  unfold kmalloc at hk
  split at hk
  · cases hk
    rfl
  · obtain ⟨⟨s1, r⟩, hsb, hk⟩ := Option.bind_eq_some_iff.mp hk
    obtain ⟨cs, hinv, -, -, -, hcs, hr⟩ := searchBlock_spec h hsb
    obtain ⟨hno1, hno2⟩ := hno l.free h.freeList
    have hnf : NoFit (alignUp n) cs := by
      rcases hcs with rfl | ⟨-, rfl⟩
      · exact hno1
      · exact hno2
    rcases hr with ⟨rfl, -⟩ | ⟨c, hc, -, hfit⟩
    · simp only [if_true] at hk
      cases hk
      rfl
    · have := hnf c hc
      omega

/-- A freed block's `size` only depends on the 16 bytes of the header. -/
theorem freedSize_congr {a : Nat} (ha : a + 24 ≤ 2 ^ 64) (hm : headerMagic m a = BLOCK_MAGIC)
    (hag : AgreeOn m m' a 16) : freedSize m' a = freedSize m a := by
  have hm' := (header_congr ha hag).2.1.trans hm
  rw [freedSize_eq ha hm, freedSize_eq ha hm',
    load_congr (hag.mono (by omega) (by omega)) (by omega)]

/-- What is fit to go back stays so while another allocation is made and filled. -/
theorem Returns.grow {hs' : List Held} (hret : Returns s bs hs x) (hreg : SameRegion s s')
    (hin : Inside cs bs) (hsz : freedSize s'.mem x.addr = freedSize s.mem x.addr)
    (hy : ∀ t : Span, 0 < t.len → (∀ b ∈ bs, b.span.Apart t) → y.span.Apart t)
    (hhs : ∀ z ∈ hs', z = y ∨ z ∈ hs) : Returns s' cs hs' x := by
  have hsp : freedSpan s'.mem x.addr = freedSpan s.mem x.addr := by
    unfold freedSpan
    rw [hsz]
  have hlen : 0 < (freedSpan s.mem x.addr).len := by simp [freedSpan]
  refine ⟨?_, fun b hb => ?_, fun z hz => ?_⟩
  · rw [hsp]
    unfold InHeap
    rw [hreg.heapStart, hreg.heapEnd]
    exact hret.inHeap
  · rw [hsp]
    exact (hin _ hlen (fun b hb => (hret.free b hb).symm) b hb).symm
  · rw [hsp]
    rcases hhs z hz with rfl | hz
    · exact (hy _ hlen fun b hb => (hret.free b hb).symm).symm
    · exact hret.held z hz

/-- The state of `krealloc` when it calls `kfree`. -/
theorem krealloc_copied {pre post : List Held} {q j : Nat} (h : HeapInv s ⟨bs, pre ++ x :: post⟩)
    (hg : Grows s ⟨bs, pre ++ x :: post⟩ s' ⟨cs, y :: (pre ++ x :: post)⟩) (hj : j ≤ y.size)
    (hy : ∀ t : Span, 0 < t.len → (∀ b ∈ bs, b.span.Apart t) → y.span.Apart t)
    (hret : Returns s bs (pre ++ post) x) :
    HeapInv { s' with mem := copy (2 ^ 64) s'.mem (y.addr + HEADER_SIZE) q j }
        ⟨cs, (y :: pre) ++ x :: post⟩ ∧
      Returns { s' with mem := copy (2 ^ 64) s'.mem (y.addr + HEADER_SIZE) q j } cs
        ((y :: pre) ++ post) x := by
  have hym : y ∈ y :: (pre ++ x :: post) := by simp
  have hyb := hg.inv.held_bound hym
  have hend := hg.inv.heapEnd_lt
  have hx : x ∈ pre ++ x :: post := by simp
  have hxb := h.held_bound hx
  have hxe := h.heapEnd_lt
  have h16 : y.addr + HEADER_SIZE = y.addr + 16 := rfl
  have hcopy : ∀ t k, t + k ≤ 2 ^ 64 → t + k ≤ y.addr + 16 ∨ y.addr + (16 + y.size) ≤ t →
      AgreeOn s'.mem (copy (2 ^ 64) s'.mem (y.addr + HEADER_SIZE) q j) t k := fun t k ht hap =>
    agreeOn_copy (by omega) ht (by omega)
  refine ⟨hg.inv.payload hym hcopy, hret.grow hg.region.setMem hg.inside ?_ hy
    fun z hz => ?_⟩
  · have hlen : 0 < x.span.len := by simp [Held.span]
    have hfree : ∀ b ∈ bs, b.span.Apart x.span := fun b hb => h.apart_block_held hb hx
    have hxy : y.addr + (16 + y.size) ≤ x.addr ∨ x.addr + (16 + x.size) ≤ y.addr :=
      Held.apart_iff.mp (hy x.span hlen hfree)
    have h1 := hg.outside x.span hlen (by show x.addr + (16 + x.size) ≤ 2 ^ 64; omega) hfree
    have h1' : AgreeOn s.mem s'.mem x.addr 16 :=
      h1.mono (Nat.le_refl _) (by show x.addr + 16 ≤ x.addr + (16 + x.size); omega)
    exact freedSize_congr (h.held_header hx) (h.held x hx).magic
      (h1'.trans (hcopy _ _ (by omega) (by omega)))
  · simp only [List.cons_append, List.mem_cons] at hz
    exact hz

/-- What `krealloc` needs of the state in which it is called on the allocation `x`: if it gives the
block back, the block fits back; if it looks for another one, it picks well. -/
def ReallocOk (s : State) (bs : List Block) (hs : List Held) (x : Held) (n : Nat) : Prop :=
  (n = 0 → Returns s bs hs x) ∧
    (n ≠ 0 → x.size < n → SearchOk s n n ∧ (SearchFails s n ∨ Returns s bs hs x))

/-- **`krealloc` gives the block back, fails, keeps the block or moves to another one.** -/
theorem krealloc_moves {pre post : List Held} (h : HeapInv s ⟨bs, pre ++ x :: post⟩)
    (hk : krealloc fuel s (x.addr + HEADER_SIZE) n = some (s', p))
    (hok : ReallocOk s bs (pre ++ post) x n) :
    (n = 0 ∧ ∃ cs, Evolves s ⟨bs, pre ++ x :: post⟩ s' ⟨cs, pre ++ post⟩ ∧
        Layout.Moves s.heapEnd ⟨bs, pre ++ x :: post⟩ ⟨cs, pre ++ post⟩) ∨
      (n ≠ 0 ∧ p = 0 ∧ ∃ cs, Evolves s ⟨bs, pre ++ x :: post⟩ s' ⟨cs, pre ++ x :: post⟩ ∧
        Layout.Moves s.heapEnd ⟨bs, pre ++ x :: post⟩ ⟨cs, pre ++ x :: post⟩) ∨
      (n ≠ 0 ∧ p ≠ 0 ∧ ∃ cs y, y.allocation = ⟨p, n⟩ ∧
        Evolves s ⟨bs, pre ++ x :: post⟩ s' ⟨cs, y :: (pre ++ post)⟩ ∧
        Layout.Moves s.heapEnd ⟨bs, pre ++ x :: post⟩ ⟨cs, y :: (pre ++ post)⟩) := by
  have hx : x ∈ pre ++ x :: post := by simp
  have h24 := h.held_header hx
  have hxok := h.held x hx
  unfold krealloc at hk
  rw [if_neg (by simp)] at hk
  split at hk
  · rename_i hn
    obtain ⟨s1, hf, hk⟩ := Option.bind_eq_some_iff.mp hk
    cases hk
    exact .inl ⟨hn, kfree_moves h hf (hok.1 hn)⟩
  · rename_i hn
    rw [blockFromPtr_add (by omega)] at hk
    simp only [hxok.size_eq] at hk
    split at hk
    · rename_i hle
      cases hk
      exact .inr (.inr ⟨hn, by simp, bs, ⟨x.addr, x.size, n⟩, rfl,
        ⟨h.resize hle, .single (.resize hle), .refl s⟩, .single (.resize hle)⟩)
    · rename_i hlt
      obtain ⟨hso, hret⟩ := hok.2 hn (Nat.lt_of_not_le hlt)
      obtain ⟨⟨s1, q⟩, hm, hk⟩ := Option.bind_eq_some_iff.mp hk
      simp only at hk
      rcases kmalloc_moves h hm (Nat.le_refl n) (.inr hso) with
        ⟨rfl, cs, hg, hmoves⟩ | ⟨cs, y, hg, hmoves, hya, hys, hy⟩
      · rw [if_pos rfl] at hk
        cases hk
        exact .inr (.inl ⟨hn, rfl, cs, hg.toEvolves, hmoves⟩)
      · obtain ⟨rfl, hyr⟩ := Allocation.mk.inj hya
        have hret := hret.resolve_left fun hno => absurd (kmalloc_fails h hm hno) (by simp)
        have hyn := (hg.inv.held y (by simp)).requested_le
        rw [if_neg (by simp)] at hk
        obtain ⟨s2, hf, hk⟩ := Option.bind_eq_some_iff.mp hk
        cases hk
        obtain ⟨hinv, hret'⟩ := krealloc_copied (q := x.addr + HEADER_SIZE)
          (j := if headerSize s1.mem x.addr < n then headerSize s1.mem x.addr else n) h hg
          (by split <;> omega) hy hret
        obtain ⟨ds, hev, hmoves'⟩ := kfree_moves hinv hf hret'
        refine .inr (.inr ⟨hn, by simp, ds, y, hya, ⟨hev.inv, hg.steps.trans hev.steps,
          hg.region.trans ⟨hev.region.heapStart, hev.region.heapEnd, hev.region.totalMemory⟩⟩,
          hmoves.trans (hg.region.heapEnd ▸ hmoves')⟩)

/-- **A call to `krealloc` returns.** -/
theorem krealloc_ends {pre post : List Held} (h : HeapInv s ⟨bs, pre ++ x :: post⟩)
    (hok : ReallocOk s bs (pre ++ post) x n) (hf : bs.length + 2 < fuel) :
    ∃ q, krealloc fuel s (x.addr + HEADER_SIZE) n = some q := by
  have hx : x ∈ pre ++ x :: post := by simp
  have h24 := h.held_header hx
  have hxok := h.held x hx
  unfold krealloc
  rw [if_neg (by simp)]
  split
  · rename_i hn
    obtain ⟨s1, hf1⟩ := kfree_ends h (hok.1 hn) (Nat.lt_of_succ_lt hf)
    simp only [hf1, Option.bind_eq_bind, Option.bind_some]
    exact ⟨_, rfl⟩
  · rename_i hn
    rw [blockFromPtr_add (by omega)]
    simp only [hxok.size_eq]
    split
    · exact ⟨_, rfl⟩
    · rename_i hlt
      obtain ⟨hso, hret⟩ := hok.2 hn (Nat.lt_of_not_le hlt)
      obtain ⟨⟨s1, q⟩, hm⟩ := kmalloc_ends h (.inr hso) (Nat.lt_of_succ_lt hf)
      simp only [hm, Option.bind_eq_bind, Option.bind_some]
      split
      · exact ⟨_, rfl⟩
      · rename_i hq
        rcases kmalloc_spec h hm (Nat.le_refl n) (.inr hso) with
          ⟨rfl, -⟩ | ⟨cs, y, hg, hya, hys, hy⟩
        · exact absurd rfl hq
        · obtain ⟨rfl, hyr⟩ := Allocation.mk.inj hya
          have hret := hret.resolve_left fun hno => absurd (kmalloc_fails h hm hno) (by simp)
          have hyn := (hg.inv.held y (by simp)).requested_le
          obtain ⟨hinv, hret'⟩ := krealloc_copied (q := x.addr + HEADER_SIZE)
            (j := if headerSize s1.mem x.addr < n then headerSize s1.mem x.addr else n) h hg
            (by split <;> omega) hy hret
          have hlen : cs.length ≤ bs.length := hg.length_le
          have hf' : cs.length + 1 < fuel := by omega
          obtain ⟨s2, hf2⟩ := kfree_ends hinv hret' hf'
          simp only [hf2, Option.bind_some]
          exact ⟨_, rfl⟩

end OSCompas.Memory
