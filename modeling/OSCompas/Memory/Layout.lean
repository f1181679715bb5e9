import OSCompas.Memory.FreeList
import Mathlib.Logic.Relation

/-!
# The layout of the heap

The heap as a list of free blocks and a list of allocations, and what each part of the allocator
does to the two lists.

* `Held` — an allocation as the heap sees it; `Layout` — free blocks and allocations;
* `Layout.Step` — what the allocator is for: merge free blocks, hand out the front of one, take
  an allocation back;
* `HeapInv` — the memory of `mem_manager` holds this layout: the list links the free blocks, the
  headers of the allocations are intact, everything is inside the heap and pairwise apart, and
  the statistics count 24 bytes less than there are for every free block and every allocation.

Principal results: `HeapInv.coalesce`, `HeapInv.take`, `HeapInv.release` and
`HeapInv.payload` (a caller writing into its own allocation).
-/

set_option autoImplicit false

namespace OSCompas.Memory

open ByteMemory Chain

variable {m m' : Mem} {a k n v size fuel requested : Nat} {s s' : State}
variable {bs cs pre post : List Block} {b c d : Block}

/-! ## The header of an allocation -/

section Header

variable (ha : a + 24 ≤ 2 ^ 64)
include ha

theorem agreeOn_setHeaderMagic {t : Nat} (hk : t + k ≤ 2 ^ 64) (h : t + k ≤ a + 8 ∨ a + 9 ≤ t) :
    AgreeOn m (setHeaderMagic m a v) t k := by
  have h8 : (a + 8) % 2 ^ 64 = a + 8 := Nat.mod_eq_of_lt (by omega)
  unfold setHeaderMagic
  rw [h8]
  exact agreeOn_store (by omega) hk (by omega)

theorem agreeOn_setHeaderUsed {t : Nat} (hk : t + k ≤ 2 ^ 64) (h : t + k ≤ a + 9 ∨ a + 10 ≤ t) :
    AgreeOn m (setHeaderUsed m a v) t k := by
  have h9 : (a + 9) % 2 ^ 64 = a + 9 := Nat.mod_eq_of_lt (by omega)
  unfold setHeaderUsed
  rw [h9]
  exact agreeOn_store (by omega) hk (by omega)

/-- The three header fields lie in the first 10 bytes. -/
theorem header_congr (h : AgreeOn m m' a 16) : headerSize m' a = headerSize m a ∧
    headerMagic m' a = headerMagic m a ∧ headerUsed m' a = headerUsed m a := by
  have h8 : (a + 8) % 2 ^ 64 = a + 8 := Nat.mod_eq_of_lt (by omega)
  have h9 : (a + 9) % 2 ^ 64 = a + 9 := Nat.mod_eq_of_lt (by omega)
  unfold headerSize headerMagic headerUsed
  rw [h8, h9]
  exact ⟨load_congr (h.mono (by omega) (by omega)) (by omega),
    load_congr (h.mono (by omega) (by omega)) (by omega),
    load_congr (h.mono (by omega) (by omega)) (by omega)⟩

end Header

/-- The header `kmalloc` writes. -/
def headerMem (m : Mem) (block size : Nat) : Mem :=
  setHeaderUsed (setHeaderMagic (setHeaderSize m block size) block BLOCK_MAGIC) block 1

theorem agreeOn_headerMem {t : Nat} (ha : a + 24 ≤ 2 ^ 64) (hk : t + k ≤ 2 ^ 64)
    (h : t + k ≤ a ∨ a + 16 ≤ t) : AgreeOn m (headerMem m a size) t k :=
  ((agreeOn_store (by omega) hk (by omega)).trans
    (agreeOn_setHeaderMagic ha hk (by omega))).trans (agreeOn_setHeaderUsed ha hk (by omega))

/-- The size is read back, also where the header goes around the end of the address space. -/
theorem headerSize_headerMem (ha : a < 2 ^ 64) (hs : size < 2 ^ 64) :
    headerSize (headerMem m a size) a = size := by
  have hkeep : ∀ i < 8, headerMem m a size ((a + i) % 2 ^ 64) =
      setHeaderSize m a size ((a + i) % 2 ^ 64) := by
    intro i hi
    have h8 : 1 ≤ offset (2 ^ 64) ((a + 8) % 2 ^ 64) ((a + i) % 2 ^ 64) := by
      unfold offset
      omega
    have h9 : 1 ≤ offset (2 ^ 64) ((a + 9) % 2 ^ 64) ((a + i) % 2 ^ 64) := by
      unfold offset
      omega
    exact (if_neg (Nat.not_lt.mpr h9)).trans (if_neg (Nat.not_lt.mpr h8))
  have hload := load_eq_of_bytes hkeep
  unfold headerSize
  rw [hload]
  exact (load_store_around ha (by decide)).trans (Nat.mod_eq_of_lt hs)

theorem headerMagic_headerMem (ha : a + 24 ≤ 2 ^ 64) :
    headerMagic (headerMem m a size) a = BLOCK_MAGIC := by
  have h8 : (a + 8) % 2 ^ 64 = a + 8 := Nat.mod_eq_of_lt (by omega)
  unfold headerMagic headerMem
  rw [h8, load_congr (agreeOn_setHeaderUsed ha (by omega) (by omega)) (by omega)]
  unfold setHeaderMagic
  rw [h8]
  exact load_store_same_of_lt (by omega) (by decide)

theorem headerUsed_headerMem (ha : a + 24 ≤ 2 ^ 64) :
    headerUsed (headerMem m a size) a = 1 := by
  have h9 : (a + 9) % 2 ^ 64 = a + 9 := Nat.mod_eq_of_lt (by omega)
  unfold headerUsed headerMem setHeaderUsed
  rw [h9]
  exact load_store_same_of_lt (by omega) (by decide)

/-! ## The `size` field of a freed block -/

/-- What `kfree` leaves in the `size` field of the block: the header's bytes from 8 on, with
`used` cleared. -/
def freedSize (m : Mem) (block : Nat) : Nat := blockSize (setHeaderUsed m block 0) block

/-- **A freed block's `size` is made of `magic`, `used` and six bytes nobody wrote.** -/
theorem freedSize_eq (ha : a + 24 ≤ 2 ^ 64) (hm : headerMagic m a = BLOCK_MAGIC) :
    freedSize m a = 0xAB + 65536 * load (2 ^ 64) m (a + 10) 6 := by
  have h8 : (a + 8) % 2 ^ 64 = a + 8 := Nat.mod_eq_of_lt (by omega)
  have h9 : (a + 9) % 2 ^ 64 = a + 9 := Nat.mod_eq_of_lt (by omega)
  have hu : load (2 ^ 64) (setHeaderUsed m a 0) (a + 9) 1 = 0 := by
    unfold setHeaderUsed
    rw [h9]
    exact load_store_same_of_lt (by omega) (by decide)
  have hmag : load (2 ^ 64) (setHeaderUsed m a 0) (a + 8) 1 = 0xAB := by
    rw [load_congr (agreeOn_setHeaderUsed ha (by omega) (by omega)) (by omega)]
    unfold headerMagic at hm
    rw [h8] at hm
    exact hm
  have hrest : load (2 ^ 64) (setHeaderUsed m a 0) (a + 10) 6 = load (2 ^ 64) m (a + 10) 6 :=
    load_congr (agreeOn_setHeaderUsed ha (by omega) (by omega)) (by omega)
  unfold freedSize blockSize
  rw [h8, load_add (2 ^ 64) _ (a + 8) 2 6, load_add (2 ^ 64) _ (a + 8) 1 1, hmag,
    show a + 8 + 1 = a + 9 by omega, hu, show a + 8 + 2 = a + 10 by omega, hrest]
  omega

theorem freedSize_low (ha : a + 24 ≤ 2 ^ 64) (hm : headerMagic m a = BLOCK_MAGIC) :
    freedSize m a % 65536 = 0xAB := by
  rw [freedSize_eq ha hm]
  omega

/-- No size `kmalloc` works with is 3 modulo 8; every size `kfree` leaves is. -/
theorem freedSize_mod (ha : a + 24 ≤ 2 ^ 64) (hm : headerMagic m a = BLOCK_MAGIC) :
    freedSize m a % 8 = 3 := by
  have hlow := freedSize_low ha hm
  omega

/-! ## Layouts -/

/-- An allocation as the heap sees it: header address, header size, bytes asked for. -/
structure Held where
  addr : Nat
  size : Nat
  requested : Nat
  deriving DecidableEq, Repr

/-- The bytes of an allocation, header included. -/
def Held.span (x : Held) : Span := ⟨x.addr, HEADER_SIZE + x.size⟩

/-- The allocation as its caller sees it. -/
def Held.allocation (x : Held) : Allocation := ⟨x.addr + HEADER_SIZE, x.requested⟩

/-- The header is intact and there is room for what was asked for. -/
structure Held.Ok (m : Mem) (x : Held) : Prop where
  nonNull : x.addr ≠ 0
  size_eq : headerSize m x.addr = x.size
  magic : headerMagic m x.addr = BLOCK_MAGIC
  used : headerUsed m x.addr = 1
  pos : 8 ≤ x.size
  requested_le : x.requested ≤ x.size

/-- Free blocks and allocations. -/
structure Layout where
  free : List Block
  held : List Held

def Layout.spans (l : Layout) : List Span := l.free.map Block.span ++ l.held.map Held.span

/-- What an allocator does: merge, hand out, take back, note a new size.  Blocks come back with
a size that is 3 modulo 8 (`freedSize_mod`). -/
inductive Layout.Step : Layout → Layout → Prop where
  | merge (l : Layout) : Step l ⟨merge l.free, l.held⟩
  | take {pre post : List Block} {c : Block} {hs : List Held} {size requested : Nat} :
    size + 24 ≤ c.size → size % 8 = 0 → Step ⟨pre ++ c :: post, hs⟩
      ⟨pre ++ (cutOff c size ++ post), ⟨c.addr, size, requested⟩ :: hs⟩
  | release {bs : List Block} {pre post : List Held} {x : Held} {size : Nat} :
    size % 8 = 3 → Step ⟨bs, pre ++ x :: post⟩ ⟨⟨x.addr, size⟩ :: bs, pre ++ post⟩
  | resize {bs : List Block} {pre post : List Held} {x : Held} {requested : Nat} :
    requested ≤ x.size →
    Step ⟨bs, pre ++ x :: post⟩ ⟨bs, ⟨x.addr, x.size, requested⟩ :: (pre ++ post)⟩

/-- Some number of layout steps. -/
abbrev Layout.Steps : Layout → Layout → Prop := Relation.ReflTransGen Layout.Step

/-- The same with what is known of the blocks that come back: the lowest byte of their size is the
magic number and the second one the cleared `used`, and they stay below the end `e` of the heap. -/
inductive Layout.Move (e : Nat) : Layout → Layout → Prop where
  | merge (l : Layout) : Move e l ⟨merge l.free, l.held⟩
  | take {pre post : List Block} {c : Block} {hs : List Held} {size requested : Nat} :
    size + 24 ≤ c.size → size % 8 = 0 → Move e ⟨pre ++ c :: post, hs⟩
      ⟨pre ++ (cutOff c size ++ post), ⟨c.addr, size, requested⟩ :: hs⟩
  | release {bs : List Block} {pre post : List Held} {x : Held} {size : Nat} :
    size % 65536 = 0xAB → x.addr + (24 + size) ≤ e →
    Move e ⟨bs, pre ++ x :: post⟩ ⟨⟨x.addr, size⟩ :: bs, pre ++ post⟩
  | resize {bs : List Block} {pre post : List Held} {x : Held} {requested : Nat} :
    requested ≤ x.size →
    Move e ⟨bs, pre ++ x :: post⟩ ⟨bs, ⟨x.addr, x.size, requested⟩ :: (pre ++ post)⟩

/-- Some number of moves. -/
abbrev Layout.Moves (e : Nat) : Layout → Layout → Prop := Relation.ReflTransGen (Layout.Move e)

theorem Layout.Move.step {e : Nat} {l l' : Layout} (h : Layout.Move e l l') :
    Layout.Step l l' := by
  cases h with
  | merge => exact .merge _
  | take hfit hmod => exact .take hfit hmod
  | release hsize => exact .release (by omega)
  | resize hle => exact .resize hle

theorem Layout.Moves.steps {e : Nat} {l l' : Layout} (h : Layout.Moves e l l') :
    Layout.Steps l l' :=
  Relation.ReflTransGen.mono (fun _ _ => Layout.Move.step) _ _ h

/-- Inside the heap and aligned. -/
def InHeap (s : State) (r : Span) : Prop := s.heapStart ≤ r.lo ∧ r.hi ≤ s.heapEnd ∧ r.lo % 8 = 0

/-- The memory of `mem_manager` holds the layout `l`. -/
structure HeapInv (s : State) (l : Layout) : Prop where
  initialized : s.initialized = true
  heapEnd_lt : s.heapEnd < 2 ^ 64
  freeList : FreeList s.mem s.freeList l.free
  held : ∀ x ∈ l.held, x.Ok s.mem
  inside : ∀ r ∈ l.spans, InHeap s r
  apart : l.spans.Pairwise Span.Apart
  accounted : s.heapStart ≠ 0 → l.spans ≠ [] ∧
    s.usedMemory + s.freeMemory + 24 * l.spans.length ≡ s.totalMemory [MOD 2 ^ 64]

variable {l l' : Layout} {hs : List Held} {x y : Held}

theorem Layout.mem_spans {r : Span} : r ∈ l.spans ↔
    (∃ b ∈ l.free, b.span = r) ∨ ∃ x ∈ l.held, x.span = r := by
  unfold Layout.spans
  simp only [List.mem_append, List.mem_map]

theorem Layout.length_spans : l.spans.length = l.free.length + l.held.length := by
  simp [Layout.spans]

theorem HeapInv.block_inHeap (h : HeapInv s l) (hb : b ∈ l.free) : InHeap s b.span :=
  h.inside _ (Layout.mem_spans.mpr (.inl ⟨b, hb, rfl⟩))

theorem HeapInv.held_inHeap (h : HeapInv s l) (hx : x ∈ l.held) : InHeap s x.span :=
  h.inside _ (Layout.mem_spans.mpr (.inr ⟨x, hx, rfl⟩))

theorem HeapInv.block_bound (h : HeapInv s l) (hb : b ∈ l.free) :
    b.addr + (24 + b.size) ≤ s.heapEnd := (h.block_inHeap hb).2.1

theorem HeapInv.held_bound (h : HeapInv s l) (hx : x ∈ l.held) :
    x.addr + (16 + x.size) ≤ s.heapEnd := (h.held_inHeap hx).2.1

/-- The 24 bytes of a free block header fit where an allocation is. -/
theorem HeapInv.held_header (h : HeapInv s l) (hx : x ∈ l.held) : x.addr + 24 ≤ 2 ^ 64 := by
  have h1 := h.held_bound hx
  have h2 := (h.held x hx).pos
  have h3 := h.heapEnd_lt
  omega

theorem HeapInv.laid (h : HeapInv s l) : Laid l.free := by
  refine ⟨fun b hb => ?_, (List.pairwise_append.mp h.apart).1⟩
  have := h.block_bound hb
  have := h.heapEnd_lt
  omega

theorem HeapInv.apart_block_held (h : HeapInv s l) (hb : b ∈ l.free) (hx : x ∈ l.held) :
    Span.Apart b.span x.span :=
  (List.pairwise_append.mp h.apart).2.2 _ (List.mem_map_of_mem hb) _ (List.mem_map_of_mem hx)

theorem HeapInv.apart_held (h : HeapInv s l) (hx : x ∈ l.held) (hy : y ∈ l.held) (hne : x ≠ y) :
    Span.Apart x.span y.span := by
  have hpw := List.pairwise_map.mp (List.pairwise_append.mp h.apart).2.1
  have hsymm : Std.Symm fun x y : Held => x.span.Apart y.span := ⟨fun _ _ h => Span.Apart.symm h⟩
  exact hpw.forall hx hy hne

theorem Held.apart_iff {t : Span} :
    Span.Apart x.span t ↔ x.addr + (16 + x.size) ≤ t.lo ∨ t.lo + t.len ≤ x.addr := Iff.rfl

/-- A header is intact as long as its 16 bytes are. -/
theorem Held.Ok.congr (h : x.Ok m) (ha : x.addr + 24 ≤ 2 ^ 64) (hag : AgreeOn m m' x.addr 16) :
    x.Ok m' := by
  obtain ⟨h1, h2, h3⟩ := header_congr ha hag
  exact ⟨h.nonNull, h1.trans h.size_eq, h2.trans h.magic, h3.trans h.used, h.pos, h.requested_le⟩

/-- An edit of the free list that keeps every block inside the space of the old ones. -/
theorem HeapInv.edit (h : HeapInv s l) (hf : Frame l.free s s')
    (hl : FreeList s'.mem s'.freeList cs) (hin : ∀ b ∈ cs, InHeap s b.span)
    (hlaid : (cs.map Block.span).Pairwise Span.Apart)
    (hout : ∀ x ∈ l.held, ∀ b ∈ cs, Span.Apart b.span x.span)
    (hacc : s'.freeMemory + 24 * cs.length ≡ s.freeMemory + 24 * l.free.length [MOD 2 ^ 64])
    (hne : l.free ≠ [] → cs ≠ []) : HeapInv s' ⟨cs, l.held⟩ := by
  refine ⟨hf.initialized.trans h.initialized, ?_, hl, fun x hx => ?_, fun r hr => ?_, ?_, ?_⟩
  · rw [hf.heapEnd]
    exact h.heapEnd_lt
  · have h24 := h.held_header hx
    have hb := h.held_bound hx
    have hpos := (h.held x hx).pos
    have hend := h.heapEnd_lt
    have hag := hf.outside x.span (by simp [Held.span])
      (by show x.addr + (16 + x.size) ≤ 2 ^ 64; omega) fun d hd => h.apart_block_held hd hx
    exact (h.held x hx).congr h24
      (hag.mono (Nat.le_refl _) (by show x.addr + 16 ≤ x.addr + (16 + x.size); omega))
  · have hr' : InHeap s r := by
      rcases Layout.mem_spans.mp hr with ⟨b, hb, rfl⟩ | ⟨x, hx, rfl⟩
      · exact hin b hb
      · exact h.held_inHeap hx
    unfold InHeap
    rw [hf.heapStart, hf.heapEnd]
    exact hr'
  · refine List.pairwise_append.mpr ⟨hlaid, (List.pairwise_append.mp h.apart).2.1, ?_⟩
    intro r hr t ht
    obtain ⟨b, hb, rfl⟩ := List.mem_map.mp hr
    obtain ⟨x, hx, rfl⟩ := List.mem_map.mp ht
    exact hout x hx b hb
  · rw [hf.heapStart, hf.totalMemory, hf.usedMemory]
    intro h0
    obtain ⟨hne', hbal⟩ := h.accounted h0
    rw [Layout.length_spans] at hbal ⊢
    refine ⟨?_, ?_⟩
    · intro he
      rw [Layout.spans, List.append_eq_nil_iff, List.map_eq_nil_iff, List.map_eq_nil_iff] at he
      apply hne'
      rw [Layout.spans, he.2, List.map_nil, List.append_nil, List.map_eq_nil_iff]
      by_contra hfr
      exact hne hfr he.1
    · have h1 := hacc.add_left (s.usedMemory + 24 * l.held.length)
      rw [show s.usedMemory + s'.freeMemory + 24 * (cs.length + l.held.length) =
        s.usedMemory + 24 * l.held.length + (s'.freeMemory + 24 * cs.length) by omega]
      refine h1.trans ?_
      rw [show s.usedMemory + 24 * l.held.length + (s.freeMemory + 24 * l.free.length) =
        s.usedMemory + s.freeMemory + 24 * (l.free.length + l.held.length) by omega]
      exact hbal

/-- **`coalesce_blocks` keeps the invariant.** -/
theorem HeapInv.coalesce (h : HeapInv s l) (hc : coalesceBlocks fuel s = some s') :
    HeapInv s' ⟨merge l.free, l.held⟩ := by
  obtain ⟨h1, h2, h3⟩ := coalesceBlocks_spec hc h.freeList h.laid
  refine h.edit h2 h1 ?_ h.laid.merge.apart ?_ h3 merge_ne_nil
  · refine merge_forall (P := fun b => InHeap s b.span) (fun c b hc hb hadj => ?_)
      fun b hb => h.block_inHeap hb
    obtain ⟨h1, -, h2⟩ := hc
    obtain ⟨-, h3, -⟩ := hb
    refine ⟨h1, ?_, h2⟩
    simp only [Block.span_hi] at h3 ⊢
    omega
  · intro x hx
    exact inside_merge l.free x.span (by simp [Held.span]) fun b hb => h.apart_block_held hb hx

/-! ## Handing out -/

theorem shrunk_addr (c : Block) (size : Nat) : (shrunk c size).addr = c.addr := by
  unfold shrunk
  split <;> rfl

theorem le_shrunk (hfit : size + 24 ≤ c.size) : size ≤ (shrunk c size).size := by
  unfold shrunk
  split
  · omega
  · exact Nat.le_refl _

theorem shrunk_within (hfit : size + 24 ≤ c.size) : (shrunk c size).span.Within c.span := by
  unfold shrunk Span.Within
  split
  · exact ⟨Nat.le_refl _, Nat.le_refl _⟩
  · simp only [Block.span_lo, Block.span_hi]
    omega

/-- What is cut off lies in the block, behind what is handed out. -/
theorem cutOff_within (hfit : size + 24 ≤ c.size) (hd : d ∈ cutOff c size) :
    d.span.Within c.span ∧ d.addr = c.addr + 24 + size ∧
      (shrunk c size).span.Apart d.span := by
  unfold cutOff shrunk at *
  split at hd
  · cases hd
  · rename_i hlt
    obtain rfl := List.mem_singleton.mp hd
    rw [if_neg hlt]
    unfold Span.Within Span.Apart
    simp only [Block.span_lo, Block.span_hi]
    refine ⟨⟨?_, ?_⟩, trivial, .inl ?_⟩
    · omega
    · omega
    · omega

/-- The two parts take the place of the block. -/
theorem split_apart (hfit : size + 24 ≤ c.size)
    (h : ((pre ++ c :: post).map Block.span).Pairwise Span.Apart) :
    ((pre ++ shrunk c size :: (cutOff c size ++ post)).map Block.span).Pairwise Span.Apart := by
  have hfront : ((c :: (pre ++ post)).map Block.span).Pairwise Span.Apart :=
    (Span.pairwise_perm (List.perm_middle.map _)).mp h
  have hs := shrunk_within hfit
  by_cases hlt : c.size - size - 24 < 32
  · have h1 : shrunk c size = c := if_pos hlt
    have h2 : cutOff c size = [] := if_pos hlt
    rw [h1, h2]
    exact h
  · have h2 : cutOff c size = [⟨c.addr + 24 + size, c.size - size - 24⟩] := if_neg hlt
    obtain ⟨hw, -, hap⟩ := cutOff_within hfit (d := ⟨c.addr + 24 + size, c.size - size - 24⟩)
      (by simp [h2])
    rw [h2]
    have hcut := Span.pairwise_cut hfront hs hw hap
    refine (Span.pairwise_perm ?_).mp hcut
    have hp : (shrunk c size :: ⟨c.addr + 24 + size, c.size - size - 24⟩ :: (pre ++ post)).Perm
        (pre ++ shrunk c size :: (⟨c.addr + 24 + size, c.size - size - 24⟩ :: post)) :=
      ((List.perm_middle.symm).cons _).trans List.perm_middle.symm
    exact hp.map Block.span

/-- **`split_block` keeps the invariant**, as long as the block is 24 bytes larger than what is
asked for. -/
theorem HeapInv.split (h : HeapInv s ⟨pre ++ c :: post, hs⟩) (hfit : size + 24 ≤ c.size)
    (hmod : size % 8 = 0) : HeapInv (splitBlock s c.addr size)
      ⟨pre ++ shrunk c size :: (cutOff c size ++ post), hs⟩ := by
  obtain ⟨h1, h2, h3⟩ := splitBlock_spec h.freeList h.laid hfit
  have hc := h.block_inHeap (b := c) (by simp)
  have hmem : ∀ d ∈ pre ++ shrunk c size :: (cutOff c size ++ post),
      d ∈ pre ++ post ∨ (d.span.Within c.span ∧ d.addr % 8 = 0) := fun d hd => by
    simp only [List.mem_append, List.mem_cons] at hd ⊢
    have hc8 : c.addr % 8 = 0 := hc.2.2
    rcases hd with hd | rfl | hd | hd
    · exact .inl (.inl hd)
    · exact .inr ⟨shrunk_within hfit, by rw [shrunk_addr]; exact hc8⟩
    · obtain ⟨hw, ha, -⟩ := cutOff_within hfit hd
      exact .inr ⟨hw, by omega⟩
    · exact .inl (.inr hd)
  have hsub : ∀ d ∈ pre ++ post, d ∈ pre ++ c :: post := fun _ => mem_middle_of_mem
  refine h.edit h2 h1 (fun d hd => ?_) (split_apart hfit h.laid.apart) (fun x hx d hd => ?_) ?_
    fun _ => by simp
  · rcases hmem d hd with hd | ⟨hw, h8⟩
    · exact h.block_inHeap (hsub d hd)
    · exact ⟨Nat.le_trans hc.1 hw.1, Nat.le_trans hw.2 hc.2.1, h8⟩
  · rcases hmem d hd with hd | ⟨hw, -⟩
    · exact h.apart_block_held (hsub d hd) hx
    · exact (h.apart_block_held (b := c) (by simp) hx).within hw
  · simp only [List.length_append, List.length_cons] at h3 ⊢
    have h4 := h3.add_right (24 * (pre.length + 1 + post.length))
    rw [show (splitBlock s c.addr size).freeMemory +
        24 * (pre.length + ((cutOff c size).length + post.length + 1)) =
      (splitBlock s c.addr size).freeMemory + 24 * (cutOff c size).length +
        24 * (pre.length + 1 + post.length) by omega,
      show pre.length + (post.length + 1) = pre.length + 1 + post.length by omega]
    exact h4

/-- The header of a block taken off the list is apart from the others of the list. -/
theorem HeapInv.takeWhole_freeList (h : HeapInv s ⟨pre ++ c :: post, hs⟩)
    (hr : removeFromFreeList fuel s c.addr = some s') (size : Nat) :
    FreeList (headerMem s'.mem c.addr size) s'.freeList (pre ++ post) := by
  obtain ⟨hl, -, -⟩ := removeFromFreeList_spec hr h.freeList h.laid
  have hcb := h.block_bound (b := c) (by simp)
  have hend := h.heapEnd_lt
  have hsub : ∀ d ∈ pre ++ post, d ∈ pre ++ c :: post := fun _ => mem_middle_of_mem
  refine ⟨hl.seg.congr (fun d hd => ?_) (fun d hd => ?_), hl.nonNull⟩
  · have := h.laid.bound d (hsub d hd)
    omega
  · have h1 := h.laid.bound d (hsub d hd)
    have h2 := h.laid.header_apart hd
    exact agreeOn_headerMem (by omega) (by omega) (by omega)

/-- And apart from the allocations. -/
theorem HeapInv.takeWhole_held (h : HeapInv s ⟨pre ++ c :: post, hs⟩)
    (hr : removeFromFreeList fuel s c.addr = some s') (hx : x ∈ hs) (size : Nat) :
    x.Ok (headerMem s'.mem c.addr size) := by
  obtain ⟨-, hf, -⟩ := removeFromFreeList_spec hr h.freeList h.laid
  have hcb := h.block_bound (b := c) (by simp)
  have hend := h.heapEnd_lt
  have hxb := h.held_bound hx
  have hxp := (h.held x hx).pos
  have hcx : x.addr + (16 + x.size) ≤ c.addr ∨ c.addr + (24 + c.size) ≤ x.addr :=
    Held.apart_iff.mp (h.apart_block_held (b := c) (by simp) hx).symm
  have hag := (hf.outside x.span (by simp [Held.span])
    (by show x.addr + (16 + x.size) ≤ 2 ^ 64; omega) fun d hd => h.apart_block_held hd hx)
  have hag' : AgreeOn s.mem s'.mem x.addr 16 :=
    hag.mono (Nat.le_refl _) (by show x.addr + 16 ≤ x.addr + (16 + x.size); omega)
  exact (h.held x hx).congr (h.held_header hx)
    (hag'.trans (agreeOn_headerMem (by omega) (by omega) (by omega)))

/-- A block taken off the list becomes an allocation. -/
theorem HeapInv.takeWhole (h : HeapInv s ⟨pre ++ c :: post, hs⟩)
    (hr : removeFromFreeList fuel s c.addr = some s') (hsize : size ≤ c.size) (hpos : 8 ≤ size)
    (hreq : requested ≤ size) :
    HeapInv { s' with
        mem := headerMem s'.mem c.addr size
        usedMemory := (s'.usedMemory + (size + HEADER_SIZE)) % 2 ^ 64
        freeMemory := sub64 s'.freeMemory ((size + HEADER_SIZE) % 2 ^ 64)
        allocCount := (s'.allocCount + 1) % 2 ^ 64 }
      ⟨pre ++ post, ⟨c.addr, size, requested⟩ :: hs⟩ := by
  obtain ⟨-, hf, hfm⟩ := removeFromFreeList_spec hr h.freeList h.laid
  have hc := h.block_inHeap (b := c) (by simp)
  have hcb := h.block_bound (b := c) (by simp)
  have hend := h.heapEnd_lt
  have h24 : c.addr + 24 ≤ 2 ^ 64 := by omega
  have hnew : Held.Ok (headerMem s'.mem c.addr size) ⟨c.addr, size, requested⟩ :=
    ⟨h.freeList.nonNull c (by simp), headerSize_headerMem (by omega) (by omega),
      headerMagic_headerMem h24, headerUsed_headerMem h24, hpos, hreq⟩
  have hsub : ∀ d ∈ pre ++ post, d ∈ pre ++ c :: post := fun _ => mem_middle_of_mem
  have hwithin : (Held.span ⟨c.addr, size, requested⟩).Within c.span := by
    refine ⟨Nat.le_refl _, ?_⟩
    show c.addr + (16 + size) ≤ c.addr + (24 + c.size)
    omega
  have hfront : (c.span :: ((pre ++ post).map Block.span ++ hs.map Held.span)).Pairwise
      Span.Apart := by
    refine (Span.pairwise_perm ?_).mp h.apart
    unfold Layout.spans
    simp only [List.map_append, List.map_cons, List.append_assoc, List.cons_append]
    exact List.perm_middle
  have hperm : (Held.span ⟨c.addr, size, requested⟩ ::
      ((pre ++ post).map Block.span ++ hs.map Held.span)).Perm
      (Layout.spans ⟨pre ++ post, ⟨c.addr, size, requested⟩ :: hs⟩) :=
    List.perm_middle.symm
  refine ⟨hf.initialized.trans h.initialized, ?_, ?_, fun x hx => ?_, fun r hr => ?_, ?_, ?_⟩
  · show s'.heapEnd < 2 ^ 64
    rw [hf.heapEnd]
    exact hend
  · dsimp only
    exact h.takeWhole_freeList hr size
  · dsimp only
    rcases List.mem_cons.mp hx with rfl | hx
    · exact hnew
    · exact h.takeWhole_held hr hx size
  · have hr' : InHeap s r := by
      rcases List.mem_cons.mp (hperm.mem_iff.mpr hr) with rfl | hr
      · exact ⟨hc.1, Nat.le_trans hwithin.2 hc.2.1, hc.2.2⟩
      · rcases List.mem_append.mp hr with hr | hr
        · obtain ⟨d, hd, rfl⟩ := List.mem_map.mp hr
          exact h.block_inHeap (hsub d hd)
        · obtain ⟨y, hy, rfl⟩ := List.mem_map.mp hr
          exact h.held_inHeap hy
    unfold InHeap
    rw [show State.heapStart _ = s'.heapStart from rfl, show State.heapEnd _ = s'.heapEnd from rfl,
      hf.heapStart, hf.heapEnd]
    exact hr'
  · exact (Span.pairwise_perm hperm).mp (Span.pairwise_shrink hfront hwithin)
  · show s'.heapStart ≠ 0 → _
    rw [hf.heapStart]
    intro h0
    obtain ⟨-, hbal⟩ := h.accounted h0
    refine ⟨by simp [Layout.spans], ?_⟩
    rw [Layout.length_spans] at hbal ⊢
    simp only [List.length_append, List.length_cons, hf.usedMemory, hf.totalMemory, hfm] at hbal ⊢
    unfold Nat.ModEq sub64 at *
    omega

/-- The parts of `takeBlock`: the split, the removal of what is left of the block, the header. -/
theorem takeBlock_parts (ht : takeBlock fuel s c.addr size = some s') : ∃ s₁ : State,
    removeFromFreeList fuel (splitBlock s c.addr size) (shrunk c size).addr = some s₁ ∧
      s' = { s₁ with
        mem := setHeaderUsed (setHeaderMagic (setHeaderSize s₁.mem c.addr size) c.addr BLOCK_MAGIC)
          c.addr 1
        usedMemory := (s₁.usedMemory + (size + HEADER_SIZE)) % 2 ^ 64
        freeMemory := sub64 s₁.freeMemory ((size + HEADER_SIZE) % 2 ^ 64)
        allocCount := (s₁.allocCount + 1) % 2 ^ 64 } := by
  unfold takeBlock at ht
  obtain ⟨s₁, hr, h₁⟩ := Option.bind_eq_some_iff.mp ht
  refine ⟨s₁, ?_, ?_⟩
  · rw [shrunk_addr]
    exact hr
  · cases h₁
    rfl

/-- **Handing out the front of a block keeps the invariant.** -/
theorem HeapInv.take (h : HeapInv s ⟨pre ++ c :: post, hs⟩)
    (ht : takeBlock fuel s c.addr size = some s') (hfit : size + 24 ≤ c.size)
    (hmod : size % 8 = 0) (hpos : 8 ≤ size) (hreq : requested ≤ size) :
    HeapInv s' ⟨pre ++ (cutOff c size ++ post), ⟨c.addr, size, requested⟩ :: hs⟩ := by
  obtain ⟨s₁, hr, rfl⟩ := takeBlock_parts ht
  have hw := (h.split hfit hmod).takeWhole hr (le_shrunk hfit) hpos hreq
  rw [shrunk_addr] at hw
  exact hw

theorem HeapInv.freeList_lt (h : HeapInv s l) : s.freeList < 2 ^ 64 := by
  have hl := h.freeList
  have hlaid := h.laid
  revert hl hlaid
  cases l.free with
  | nil =>
    intro hl _
    rw [freeList_nil.mp hl]
    decide
  | cons b bs =>
    intro hl hlaid
    have := hlaid.bound b (by simp)
    rw [(freeList_cons.mp hl).1]
    omega

/-! ## Taking back -/

/-- The bytes `kfree` writes. -/
def freedMem (m : Mem) (block head : Nat) : Mem :=
  setNext (setBlockMagic (setHeaderUsed m block 0) block BLOCK_MAGIC) block head

theorem agreeOn_freedMem {t : Nat} (ha : a + 24 ≤ 2 ^ 64) (hk : t + k ≤ 2 ^ 64)
    (h : t + k ≤ a ∨ a + 24 ≤ t) : AgreeOn m (freedMem m a v) t k :=
  ((agreeOn_setHeaderUsed ha hk (by omega)).trans (agreeOn_setBlockMagic ha hk (by omega))).trans
    (agreeOn_setNext ha hk h)

theorem blockSize_freedMem (ha : a + 24 ≤ 2 ^ 64) :
    blockSize (freedMem m a v) a = freedSize m a := by
  unfold freedMem freedSize
  rw [blockSize_setNext ha]
  exact blockSize_congr (agreeOn_setBlockMagic ha (by omega) (by omega)) (by omega)

theorem next_freedMem (ha : a + 24 ≤ 2 ^ 64) (hv : v < 2 ^ 64) :
    next (freedMem m a v) a = v := by
  unfold freedMem
  exact next_setNext ha hv

/-- The bytes of a freed block, as its `size` field says. -/
def freedSpan (m : Mem) (block : Nat) : Span := ⟨block, FREE_BLOCK_SIZE + freedSize m block⟩

/-- **Taking an allocation back keeps the invariant**, as long as the `size` field it is left
with stays inside the heap and off everything else.  Whatever `kfree` puts into the statistics,
it adds on one side what it takes off the other. -/
theorem HeapInv.release {pre post : List Held} {delta cnt : Nat}
    (h : HeapInv s ⟨bs, pre ++ x :: post⟩) (hin : InHeap s (freedSpan s.mem x.addr))
    (hbs : ∀ b ∈ bs, (freedSpan s.mem x.addr).Apart b.span)
    (hhs : ∀ y ∈ pre ++ post, (freedSpan s.mem x.addr).Apart y.span) :
    HeapInv { s with
        mem := freedMem s.mem x.addr s.freeList
        freeList := x.addr
        usedMemory := sub64 s.usedMemory (delta % 2 ^ 64)
        freeMemory := (s.freeMemory + delta) % 2 ^ 64
        freeCount := cnt }
      ⟨⟨x.addr, freedSize s.mem x.addr⟩ :: bs, pre ++ post⟩ := by
  have hx : x ∈ pre ++ x :: post := by simp
  have h24 := h.held_header hx
  have hend := h.heapEnd_lt
  have hsub : ∀ y ∈ pre ++ post, y ∈ pre ++ x :: post := fun _ => mem_middle_of_mem
  -- headers apart from the freed block are as they were
  have hag : ∀ t, t + 16 ≤ 2 ^ 64 → t + 16 ≤ x.addr ∨ x.addr + (24 + freedSize s.mem x.addr) ≤ t →
      AgreeOn s.mem (freedMem s.mem x.addr s.freeList) t 16 := fun t ht hap =>
    agreeOn_freedMem h24 ht (by omega)
  refine ⟨h.initialized, hend, ?_, fun y hy => ?_, fun r hr => ?_, ?_, ?_⟩
  · refine freeList_cons.mpr ⟨rfl, (h.held x hx).nonNull, blockSize_freedMem h24, ?_⟩
    rw [next_freedMem h24 h.freeList_lt]
    refine ⟨h.freeList.seg.congr (fun d hd => ?_) (fun d hd => ?_), h.freeList.nonNull⟩
    · have := h.laid.bound d hd
      omega
    · have hdb := h.laid.bound d hd
      have hap : d.addr + (24 + d.size) ≤ x.addr ∨
          x.addr + (24 + freedSize s.mem x.addr) ≤ d.addr :=
        Block.apart_iff.mp (hbs d hd).symm
      exact hag d.addr (by omega) (by omega)
  · have hyb := h.held_bound (hsub y hy)
    have hap : y.addr + (16 + y.size) ≤ x.addr ∨
        x.addr + (24 + freedSize s.mem x.addr) ≤ y.addr := Held.apart_iff.mp (hhs y hy).symm
    exact (h.held y (hsub y hy)).congr (h.held_header (hsub y hy))
      (hag y.addr (by omega) (by omega))
  · rcases Layout.mem_spans.mp hr with ⟨d, hd, rfl⟩ | ⟨y, hy, rfl⟩
    · rcases List.mem_cons.mp hd with rfl | hd
      · exact hin
      · exact h.block_inHeap hd
    · exact h.held_inHeap (hsub y hy)
  · have hrest : ((bs.map Block.span) ++ (pre ++ post).map Held.span).Pairwise Span.Apart := by
      have h1 : (x.span :: (bs.map Block.span ++ (pre ++ post).map Held.span)).Pairwise
          Span.Apart := by
        refine (Span.pairwise_perm ?_).mp h.apart
        unfold Layout.spans
        simp only [List.map_append, List.map_cons, ← List.append_assoc]
        exact List.perm_middle
      exact (List.pairwise_cons.mp h1).2
    refine List.pairwise_cons.mpr ⟨fun r hr => ?_, hrest⟩
    rcases List.mem_append.mp hr with hr | hr
    · obtain ⟨d, hd, rfl⟩ := List.mem_map.mp hr
      exact hbs d hd
    · obtain ⟨y, hy, rfl⟩ := List.mem_map.mp hr
      exact hhs y hy
  · intro h0
    obtain ⟨-, hbal⟩ := h.accounted h0
    refine ⟨by simp [Layout.spans], ?_⟩
    rw [Layout.length_spans] at hbal ⊢
    simp only [List.length_append, List.length_cons] at hbal ⊢
    unfold Nat.ModEq sub64 at *
    omega

/-! ## Writing into an allocation -/

/-- **A store inside the payload of an allocation keeps the invariant.** -/
theorem HeapInv.payload (h : HeapInv s l) (hx : x ∈ l.held)
    (hag : ∀ t k, t + k ≤ 2 ^ 64 → t + k ≤ x.addr + 16 ∨ x.addr + (16 + x.size) ≤ t →
      AgreeOn s.mem m t k) : HeapInv { s with mem := m } l := by
  have hend := h.heapEnd_lt
  refine ⟨h.initialized, hend, ⟨h.freeList.seg.congr (fun d hd => ?_) (fun d hd => ?_),
    h.freeList.nonNull⟩, fun y hy => ?_, h.inside, h.apart, h.accounted⟩
  · have := h.laid.bound d hd
    omega
  · have hd1 := h.laid.bound d hd
    have hd2 : x.addr + (16 + x.size) ≤ d.addr ∨ d.addr + (24 + d.size) ≤ x.addr :=
      Held.apart_iff.mp (h.apart_block_held hd hx).symm
    exact hag _ _ (by omega) (by omega)
  · have hyb := h.held_bound hy
    have hyp := (h.held y hy).pos
    refine (h.held y hy).congr (h.held_header hy) (hag _ _ (by omega) ?_)
    by_cases hxy : x = y
    · subst hxy
      exact .inl (Nat.le_refl _)
    · have hxy' : x.addr + (16 + x.size) ≤ y.addr ∨ y.addr + (16 + y.size) ≤ x.addr :=
        Held.apart_iff.mp (h.apart_held hx hy hxy)
      omega

/-- **An allocation may be used for any size that fits into it.** -/
theorem HeapInv.resize {pre post : List Held} (h : HeapInv s ⟨bs, pre ++ x :: post⟩)
    (hreq : requested ≤ x.size) :
    HeapInv s ⟨bs, ⟨x.addr, x.size, requested⟩ :: (pre ++ post)⟩ := by
  have hperm : (Layout.spans ⟨bs, pre ++ x :: post⟩).Perm
      (Layout.spans ⟨bs, ⟨x.addr, x.size, requested⟩ :: (pre ++ post)⟩) := by
    have hp : (pre ++ x :: post).Perm (x :: (pre ++ post)) := List.perm_middle
    exact (hp.map Held.span).append_left _
  refine ⟨h.initialized, h.heapEnd_lt, h.freeList, fun y hy => ?_, fun r hr => ?_, ?_, ?_⟩
  · rcases List.mem_cons.mp hy with rfl | hy
    · have hx := h.held x (by simp)
      exact ⟨hx.nonNull, hx.size_eq, hx.magic, hx.used, hx.pos, hreq⟩
    · exact h.held y (mem_middle_of_mem hy)
  · exact h.inside r (hperm.mem_iff.mpr hr)
  · exact (Span.pairwise_perm hperm).mp h.apart
  · intro h0
    obtain ⟨hne, hbal⟩ := h.accounted h0
    rw [← hperm.length_eq]
    exact ⟨fun he => hne (List.perm_nil.mp (he ▸ hperm)), hbal⟩

end OSCompas.Memory
